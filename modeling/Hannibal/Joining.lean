/-
Joining.

The join futures of an actor share one slot with the handle of its task: the one polled
first takes it out, and only then waits.  The others find the slot empty, and so do those
that are made after the first one was dropped:

* `Fetched` — the handle yields the actor once, to whoever took it;
* **`joins_keep_iff`** — the joins wait for the actor and return it exactly if none is
  polled for the first time on an empty slot before the end, or behind it while the actor
  is still to be fetched.
-/
import Hannibal.Actors

open scoped List

namespace Hannibal

variable {A : Actor}

/-- The actor a join future came back with. -/
def Event.fetched? : Event A → Option A.State
  | .joined _ out => out
  | _ => none

def fetched (t : List (Event A)) : List A.State := t.filterMap Event.fetched?

@[simp] theorem fetched_append (t u : List (Event A)) :
    fetched (t ++ u) = fetched t ++ fetched u := List.filterMap_append

theorem fetched_eq_nil {t : List (Event A)} (h : ∀ j out, .joined j out ∉ t) :
    fetched t = [] := by
  refine List.filterMap_eq_nil_iff.mpr fun ev hev => ?_
  cases ev with
  | joined j out => exact absurd hev (h j out)
  | _ => rfl

namespace Sys

/-! ### The release -/

theorem LoopStep.released_mem_iff {E : Environment A} {s t : Sys A} {es : List (Event A)}
    (h : s.LoopStep E t es) : .released ∈ es ↔ t.phase.isEnded = true := by
  have hafter : E.afterLoop.isEnded = false := by
    unfold Environment.afterLoop
    split <;> rfl
  cases h with
  | takeTask es e q f hr | restartPanic es e q hr =>
    obtain ⟨-, rfl | rfl⟩ := hr.events <;> simp [Phase.isEnded]
  | takeStop es e q hr | mailboxEnd es hr =>
    obtain ⟨-, rfl | rfl⟩ := hr.events <;> simp [hafter]
  | startOk w es a c u hp | startErr w es e a c hp => cases hp <;> simp [Phase.isEnded]
  | streamPending hp => simp [hp, Phase.isEnded]
  | taskOverran i w sel fut a c hp =>
    simp only [Sys.overrun, record_phase]
    split <;> simp [Phase.isEnded]
  | crash o ho hs =>
    unfold Sys.crash
    split <;> simp [Phase.isEnded]
  | dropContext hd =>
    obtain ⟨o, hp | hp⟩ := phase_of_dropsContext hd <;> simp [hp, Phase.isEnded]
  | _ => simp [Phase.isEnded, Sys.complete, Sys.notify, Sys.release]

/-- The history ends its loop where the phase does. -/
def Released (s : Sys A) : Prop := .released ∈ s.trace ↔ s.phase.isEnded = true

theorem Released.step {E : Environment A} {s t : Sys A} {es : List (Event A)} (hs : s.Released)
    (h : E.Step s t es) : t.Released := by
  unfold Released at hs ⊢
  rcases h.outside with ⟨ho, -⟩ | ⟨-, hl⟩
  · have hes : Event.released ∉ es := fun hm => ho.source _ hm rfl
    rw [ho.trace, ho.phase, List.mem_append, hs]
    simp [hes]
  · have hn : .released ∉ s.trace := by
      rw [hs, hl.not_ended]
      simp
    rw [hl.trace, List.mem_append, hl.released_mem_iff]
    simp [hn]

/-! ### The slot -/

/-- The handle of the task is in the slot or with one join future until it yields the
actor, and after that nowhere. -/
structure Fetched (s : Sys A) : Prop where
  slot : s.joinSlot = true → fetched s.trace = []
  holding : ∀ j : ℕ, s.joins[j]? = some .holding → fetched s.trace = []
  once : (fetched s.trace).length ≤ 1

/-- Nobody comes back with the actor, and nobody new takes the handle. -/
theorem Fetched.keep {s t : Sys A} {es : List (Event A)} (hs : s.Fetched)
    (ht : t.trace = s.trace ++ es) (he : fetched es = [])
    (hslot : t.joinSlot = true → s.joinSlot = true)
    (hhold : ∀ j : ℕ, t.joins[j]? = some .holding →
      s.joins[j]? = some .holding ∨ s.joinSlot = true) : t.Fetched := by
  have hf : fetched t.trace = fetched s.trace := by
    rw [ht, fetched_append, he, List.append_nil]
  refine ⟨fun h => ?_, fun j hj => ?_, ?_⟩
  · rw [hf]
    exact hs.slot (hslot h)
  · rw [hf]
    exact (hhold j hj).elim (hs.holding j) hs.slot
  · rw [hf]
    exact hs.once

/-- The handle comes back with what the task returned. -/
theorem Fetched.fetch {s t : Sys A} {es : List (Event A)} {out : Option A.State}
    (hno : fetched s.trace = []) (ht : t.trace = s.trace ++ es) (he : fetched es = out.toList)
    (hslot : t.joinSlot ≠ true) (hhold : ∀ j : ℕ, t.joins[j]? ≠ some .holding) : t.Fetched := by
  refine ⟨fun h => absurd h hslot, fun j hj => absurd hj (hhold j), ?_⟩
  rw [ht, fetched_append, hno, he]
  cases out <;> simp

theorem Fetched.watchStep {s t : Sys A} {es : List (Event A)} (hj : s.Joins) (hs : s.Fetched)
    (h : s.WatchStep t es) : t.Fetched := by
  have hset : ∀ (j k : ℕ) (x : JoinState A), x ≠ .holding →
      (s.joins.set j x)[k]? = some .holding → k ≠ j ∧ s.joins[k]? = some .holding := by
    intro j k x hx hk
    rcases Table.getElem?_set_cases hk with ⟨-, h⟩ | ⟨hne, hk⟩
    · exact absurd h.symm hx
    · exact ⟨fun h => hne h.symm, hk⟩
  have ho := (watchStep_outside h).1.trace
  cases h with
  | await i hd r => exact hs.keep ho rfl (fun h => h) fun _ h => .inl h
  | join i hd hh hk =>
    refine hs.keep ho rfl (fun h => h) fun k hk => .inl ?_
    rcases Nat.lt_or_ge k s.joins.length with hlt | hge
    · rwa [List.getElem?_append_left hlt] at hk
    · rw [List.getElem?_append_right hge, List.getElem?_singleton] at hk
      split at hk <;> cases hk
  | takeDone j out hc hsl hp =>
    have he : fetched [Event.joinPolled j, .joined j out] = out.toList := by cases out <;> rfl
    refine Fetched.fetch (hs.slot hsl) ho he (by simp) fun k hk => ?_
    -- where the handle is in the slot nobody holds it
    have hh := hj.holding k (hset j k _ (by simp) hk).2
    rw [hj.slot hsl] at hh
    cases hh
  | take j hc hsl hp =>
    refine hs.keep ho rfl (fun h => by cases h) fun k hk => ?_
    rcases Table.getElem?_set_cases hk with ⟨-, -⟩ | ⟨-, hk⟩
    · exact .inr hsl
    · exact .inl hk
  | empty j hc hsl =>
    exact hs.keep ho rfl (fun h => h) fun k hk => .inl (hset j k _ (by simp) hk).2
  | finish j out hh hp =>
    have hp := hj.holding j hh
    have he : fetched [Event.joined j out] = out.toList := by cases out <;> rfl
    refine Fetched.fetch (hs.holding j hh) ho he (fun h => ?_) fun k hk => ?_
    · rw [hj.slot h] at hp
      cases hp
    · -- the holder is the one that was polled first
      obtain ⟨hne, hk⟩ := hset j k _ (by simp) hk
      exact hne (Option.some_inj.mp ((hj.holding k hk).symm.trans hp))
  | drop j st hd =>
    exact hs.keep ho rfl (fun h => h) fun k hk => .inl (hset j k _ (by simp) hk).2

theorem Fetched.step {E : Environment A} {s t : Sys A} {es : List (Event A)} (hj : s.Joins)
    (hs : s.Fetched) (h : E.Step s t es) : t.Fetched := by
  rcases step_watches_or_quiet h with hw | ⟨hes, hjoins, hslot, -⟩
  · exact hs.watchStep hj hw
  · exact hs.keep h.trace (fetched_eq_nil fun j out hm => hes _ hm rfl) (fun h => hslot ▸ h)
      fun j h => .inl (hjoins ▸ h)

/-! ### What a join promises -/

/-- No join future resolves before the event loop has ended, at most one of them comes back
with the actor, and behind a loop that returned it the first one to resolve does. -/
structure JoinsKeep (s : Sys A) : Prop where
  waits : ∀ u v j out, s.trace = u ++ .joined j out :: v → .released ∈ u
  once : (fetched s.trace).length ≤ 1
  first : ∀ a, s.phase = .ended (.ok a) → ∀ u v j out, s.trace = u ++ .joined j out :: v →
    .released ∈ u → (∀ k out', ¬ [.released, .joined k out'] <+ u) → out = some a

/-- What happened before keeps its promise if all of it does. -/
theorem JoinsKeep.back {s t : Sys A} {es : List (Event A)} (ht : t.JoinsKeep)
    (htr : t.trace = s.trace ++ es)
    (hp : ∀ a, s.phase = .ended (.ok a) → t.phase = .ended (.ok a)) : s.JoinsKeep := by
  have hold : ∀ {u v : List (Event A)} {ev : Event A}, s.trace = u ++ ev :: v →
      t.trace = u ++ ev :: (v ++ es) := by
    intro u v ev h
    rw [htr, h, List.append_assoc, List.cons_append]
  refine ⟨fun u v j out h => ht.waits u _ j out (hold h), ?_,
    fun a ha u v j out h => ht.first a (hp a ha) u _ j out (hold h)⟩
  have := ht.once
  rw [htr, fetched_append, List.length_append] at this
  omega

/-- A join future is polled for the first time where the handle is in the slot, or behind
the end of a loop whose actor was fetched already or did not come back at all. -/
def Prompt (s : Sys A) (l : Label A) (_ : Sys A) : Prop :=
  ∀ j, l = .watch (.pollJoin j) → s.joins[j]? = some .created → s.joinSlot = false →
    ∃ o, s.phase = .ended o ∧ ∀ a, o = .ok a → ∃ k out, .joined k out ∈ s.trace

/-- How a join future resolves in a step: it yields what the task returned, or it found
the slot empty. -/
inductive Yields (s : Sys A) (l : Label A) (es : List (Event A)) : Prop where
  | quiet (he : ∀ j out, .joined j out ∉ es)
  | fetches (j : ℕ) (out : Option A.State) (r : List (Event A)) (he : es = r ++ [.joined j out])
      (hr : ∀ k out, .joined k out ∉ r) (ho : s.phase.output = some out)
  | empty (j : ℕ) (hl : l = .watch (.pollJoin j)) (hj : s.joins[j]? = some .created)
      (hsl : s.joinSlot = false) (he : es = [.joinPolled j, .joined j none])

theorem pollJoin_yields {s t : Sys A} {j : ℕ} (h : s.pollJoin j = some t) :
    ∃ es, t.trace = s.trace ++ es ∧ s.Yields (.watch (.pollJoin j)) es := by
  unfold pollJoin at h
  split at h
  · next hj =>
    split at h
    · split at h
      · next out ho =>
        cases h
        exact ⟨_, rfl, .fetches j out [.joinPolled j] rfl (by simp) ho⟩
      · cases h
        exact ⟨_, rfl, .quiet (by simp)⟩
    · next hsl =>
      cases h
      exact ⟨_, rfl, .empty j rfl hj (by simpa using hsl) rfl⟩
  · obtain ⟨out, ho, rfl⟩ := Option.map_eq_some_iff.mp h
    exact ⟨_, rfl, .fetches j out [] rfl (by simp) ho⟩
  · cases h

theorem watchStep_yields {s t : Sys A} {l : WatchLabel} (h : s.watchStep l = some t) :
    ∃ es, t.trace = s.trace ++ es ∧ s.Yields (.watch l) es := by
  cases l with
  | pollJoin j => exact pollJoin_yields h
  | await i =>
    simp only [watchStep] at h
    split at h
    · split at h
      · split at h
        · cases h
          exact ⟨_, rfl, .quiet (by simp)⟩
        · cases h
      · cases h
    · cases h
  | join i =>
    simp only [watchStep] at h
    split at h
    · split at h
      · cases h
        exact ⟨[], (List.append_nil _).symm, .quiet (by simp)⟩
      · cases h
    · cases h
  | dropJoin j =>
    simp only [watchStep] at h
    split at h
    · cases h
    · cases h
      exact ⟨[], (List.append_nil _).symm, .quiet (by simp)⟩
    · cases h

end Sys

namespace Environment

variable {E : Environment A} {a : A.State} {c : A.Ctx} {s t : Sys A} {l : Label A}

theorem step_yields (h : E.step s l = some t) : ∃ es, E.Step s t es ∧ s.Yields l es := by
  obtain ⟨es, hes⟩ := step_cases h
  refine ⟨es, hes, ?_⟩
  have hquiet : (∀ ev ∈ es, ev.source ≠ .watch) → s.Yields l es :=
    fun hsrc => .quiet fun j out hm => hsrc _ hm rfl
  cases l with
  | watch l =>
    obtain ⟨es', ht, hr⟩ := Sys.watchStep_yields h
    obtain rfl := List.append_cancel_left (hes.trace.symm.trans ht)
    exact hr
  | handle l =>
    have htr := hes.trace
    rw [(Sys.handleStep_outside h).1.trace, List.append_cancel_left_eq] at htr
    exact hquiet (by simp [← htr])
  | op l =>
    obtain ⟨es', hop⟩ := Sys.opStep_cases h
    have htr := hes.trace
    rw [(Sys.opStep_outside hop).1.trace, List.append_cancel_left_eq] at htr
    subst htr
    refine hquiet ?_
    cases hop <;> simp +contextual [Sys.mem_returnEvents, Event.source]
  | loop l =>
    obtain ⟨-, es', hl⟩ := Sys.loopStep_cases h
    have htr := hes.trace
    rw [hl.trace, List.append_cancel_left_eq] at htr
    subst htr
    exact hquiet fun ev hev => by simp [hl.source ev hev]

namespace Reachable

theorem released (h : E.Reachable a c s) : s.Released := by
  refine reachable_induction (P := Sys.Released) ?_ (fun _ _ _ _ _ hs hst => hs.step hst) h
  show Event.released ∈ ([] : List (Event A)) ↔ _
  simp [init, Phase.isEnded]

theorem fetched (h : E.Reachable a c s) : s.Fetched :=
  reachable_induction (P := Sys.Fetched) ⟨fun _ => rfl, fun _ _ => rfl, Nat.zero_le _⟩
    (fun _ _ _ hs _ hf hst => hf.step hs.joins hst) h

theorem ended_iff (h : E.Reachable a c s) : .released ∈ s.trace ↔ ∃ o, s.phase = .ended o := by
  have hr : .released ∈ s.trace ↔ s.phase.isEnded = true := h.released
  rw [hr]
  cases s.phase <;> simp [Phase.isEnded]

end Reachable

/-- The end of a loop is final. -/
theorem Step.ended {es : List (Event A)} (h : E.Step s t es) {o : Exit A}
    (hp : s.phase = .ended o) : t.phase = .ended o := by
  rcases h.outside with ⟨ho, -⟩ | ⟨-, hl⟩
  · rw [ho.phase, hp]
  · have hn := hl.not_ended
    rw [hp] at hn
    cases hn

theorem Reachable.joinsKeep_step (h : E.Reachable a c s) (hk : s.JoinsKeep)
    (hp : s.Prompt l t) (hst : E.step s l = some t) : t.JoinsKeep := by
  obtain ⟨es, hes, hr⟩ := step_yields hst
  have htr := hes.trace
  -- a join future resolves behind the end, and to the actor if it is the first one there
  have hnew : ∀ r v j out, es = r ++ .joined j out :: v → (∃ o, s.phase = .ended o) ∧
      ∀ b, s.phase = .ended (.ok b) → (∀ k out', .joined k out' ∉ s.trace) → out = some b := by
    intro r v j out he
    cases hr with
    | quiet hq => exact absurd (he ▸ List.mem_append_right r (List.mem_cons_self ..)) (hq j out)
    | fetches i out' r' he' hr' ho =>
      have hout : out = out' := by
        rcases split_append (he'.symm.trans he) with ⟨v', hv, -⟩ | ⟨r'', hv, -⟩
        · exact absurd (hv ▸ List.mem_append_right r (List.mem_cons_self ..)) (hr' j out)
        · cases r'' with
          | nil => simp_all
          | cons => simp at hv
      subst hout
      cases hph : s.phase with
      | ended o =>
        refine ⟨⟨o, rfl⟩, ?_⟩
        rintro b hb -
        cases hb
        rw [hph] at ho
        exact (Option.some_inj.mp ho).symm
      | _ => simp [hph, Phase.output] at ho
    | empty i hl hj hsl he' =>
      obtain ⟨o, ho, hprompt⟩ := hp i hl hj hsl
      refine ⟨⟨o, ho⟩, fun b hb hno => ?_⟩
      rw [ho] at hb
      obtain ⟨k, out', hk⟩ := hprompt b (by simpa using hb)
      exact absurd hk (hno k out')
  refine ⟨fun u v j out he => ?_, (h.next hst).fetched.once, fun b hb u v j out he hu hno => ?_⟩
  · rcases split_append (htr.symm.trans he) with ⟨v', hv, -⟩ | ⟨r, hv, rfl⟩
    · exact hk.waits u v' j out hv
    · exact List.mem_append_left _ (h.ended_iff.mpr (hnew r v j out hv).1)
  · rcases split_append (htr.symm.trans he) with ⟨v', hv, -⟩ | ⟨r, hv, rfl⟩
    · obtain ⟨o, ho⟩ := h.ended_iff.mp (hv ▸ List.mem_append_left _ hu)
      have hob := (hes.ended ho).symm.trans hb
      rw [hob] at ho
      exact hk.first b ho u v' j out hv hu hno
    · obtain ⟨⟨o, ho⟩, hout⟩ := hnew r v j out hv
      have hob := (hes.ended ho).symm.trans hb
      rw [hob] at ho
      refine hout b ho fun k out' hmem => hno k out' ?_
      obtain ⟨x, y, hxy⟩ := List.append_of_mem hmem
      have hx := hk.waits x y k out' hxy
      rw [hxy, List.append_assoc]
      exact (List.singleton_sublist.mpr hx).append (List.singleton_sublist.mpr (by simp))

/-- What a join on an empty slot says of the state it was made in. -/
theorem Reachable.prompt (h : E.Reachable a c s) (hst : E.step s l = some t)
    (hk : t.JoinsKeep) : s.Prompt l t := by
  rintro j rfl hj hsl
  have ht : t.trace = s.trace ++ [.joinPolled j] ++ [.joined j none] ∧ t.phase = s.phase := by
    simp only [step, Sys.watchStep, Sys.pollJoin, hj, hsl] at hst
    cases hst
    exact ⟨(List.append_assoc _ [_] [_]).symm, rfl⟩
  obtain ⟨htr, hph⟩ := ht
  have hrel := hk.waits _ [] j none htr
  have hend := h.ended_iff.mp (by simpa using hrel)
  obtain ⟨o, ho⟩ := hend
  refine ⟨o, ho, ?_⟩
  rintro b rfl
  by_contra hno
  have hb := hk.first b (hph.trans ho) _ [] j none htr hrel fun k out' hsub => hno ⟨k, out', ?_⟩
  · cases hb
  · have hmem := hsub.subset (List.mem_cons_of_mem _ (List.mem_cons_self ..))
    simpa using hmem

/-- **The joins keep their promise exactly if each finds the handle.**  A join future that
is polled for the first time after another one took the handle resolves to nothing at once:
right only where the loop has ended and its actor was fetched, or did not come back. -/
theorem joins_keep_iff {ls : List (Label A)} (h : E.system.run (E.init a c) ls = some s) :
    s.JoinsKeep ↔ E.system.Along Sys.Prompt (E.init a c) ls := by
  have hnext : ∀ u k v, E.Reachable a c u → E.step u k = some v → E.Reachable a c v :=
    fun u k v hu hst => hu.next hst
  constructor
  · intro hk
    refine (Machine.along_of_end (I := E.Reachable a c) (P := Sys.JoinsKeep) hnext
      (fun u k v hu hst hv => ?_) (fun u k v hu hst hv => hu.prompt hst hv) (.refl _ _) h hk).1
    obtain ⟨es, hes⟩ := step_cases hst
    exact hv.back hes.trace fun b hb => hes.ended hb
  · intro hal
    refine (Machine.invariant_along (P := fun u => E.Reachable a c u ∧ u.JoinsKeep)
      (fun u k v hu hC hst => ⟨hu.1.next hst, hu.1.joinsKeep_step hu.2 hC hst⟩)
      ⟨.refl _ _, ?_, Nat.zero_le _, ?_⟩ hal h).2
    · intro u v j out he
      simp [init] at he
    · intro b hb
      cases hb

end Environment

namespace Tally

/-- A join future waits for the actor, which is then told to stop and ends. -/
def joined : List (Label tally) :=
  [.watch (.join 0), .watch (.pollJoin 0), .loop (.hook true), .op (.begin .stop 0), .op (.push 0),
    .loop .recv, .loop (.hook true), .loop .notify, .loop .dropContext, .loop .release]

/-- A second join future is made and polled while the first one waits. -/
def overlapping : List (Label tally) :=
  [.watch (.join 0), .watch (.pollJoin 0), .watch (.join 0), .watch (.pollJoin 1)]

/-- The first join future is dropped, as a timeout does, before the actor is stopped. -/
def cancelled : List (Label tally) :=
  [.watch (.join 0), .watch (.pollJoin 0), .watch (.dropJoin 0), .loop (.hook true),
    .op (.begin .stop 0), .op (.push 0), .loop .recv, .loop (.hook true), .loop .notify,
    .loop .dropContext, .loop .release, .watch (.join 0), .watch (.pollJoin 1)]

end Tally

/-- A second join future does not wait, and one made after the first was dropped does not
return the actor. -/
theorem not_joins_keep : (¬ ∀ s, Tally.plain.Reachable (0 : ℕ) (0 : ℕ) s → s.JoinsKeep) ∧
    ¬ ∀ s, Tally.plain.Reachable (0 : ℕ) (0 : ℕ) s → (∃ b, s.phase = .ended (.ok b)) →
      s.JoinsKeep := by
  constructor
  · intro h
    have hw := (h _ (Tally.reachable Tally.overlapping rfl)).waits [.joinPolled 0, .joinPolled 1]
      [] 1 none rfl
    exact absurd hw (by simp)
  · intro h
    obtain ⟨s, hs, hp, ht⟩ : ∃ s, Tally.plain.system.run (Tally.spawn Tally.plain)
        Tally.cancelled = some s ∧ s.phase = .ended (.ok (0 : ℕ)) ∧
        s.trace = [.joinPolled 0, .started true 0 true, .began 0, .accepted ⟨0, .stop⟩,
          .returned 0 (.ok none), .taken ⟨0, .stop⟩, .stopped true 0 (0 : ℕ), .notified, .released,
          .joinPolled 1] ++ .joined 1 none :: [] := ⟨_, rfl, rfl, rfl⟩
    have hf := (h s (Tally.reachable _ hs) ⟨_, hp⟩).first _ hp _ _ _ _ ht (by simp)
      fun k out' hsub => by simpa using hsub.subset (List.mem_cons_of_mem _ (List.mem_cons_self ..))
    cases hf

/-- One join future, which is made first, waits and returns the actor. -/
theorem joins_keep_of_one : ∃ s, Tally.plain.system.run (Tally.spawn Tally.plain)
      (Tally.joined ++ [.watch (.pollJoin 0)]) = some s ∧
    Tally.plain.system.Along Sys.Prompt (Tally.spawn Tally.plain)
      (Tally.joined ++ [.watch (.pollJoin 0)]) ∧
    (s.JoinsKeep ↔ Tally.plain.system.Along Sys.Prompt (Tally.spawn Tally.plain)
      (Tally.joined ++ [.watch (.pollJoin 0)])) := by
  obtain ⟨s, hs⟩ : ∃ s, Tally.plain.system.run (Tally.spawn Tally.plain)
      (Tally.joined ++ [.watch (.pollJoin 0)]) = some s := ⟨_, rfl⟩
  refine ⟨s, hs, ⟨fun j hl => (by cases hl), ?_⟩, Environment.joins_keep_iff hs⟩
  -- the slot is taken by the first poll; what is polled at the end holds what was in it
  refine ⟨fun j hl hj hslot => (by cases hslot), fun j hl => (by cases hl),
    fun j hl => (by cases hl), fun j hl => (by cases hl), fun j hl => (by cases hl),
    fun j hl => (by cases hl), fun j hl => (by cases hl), fun j hl => (by cases hl),
    fun j hl => (by cases hl), fun j hl hj => ?_, trivial⟩
  cases hl
  cases hj

end Hannibal
