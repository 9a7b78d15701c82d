/-
What becomes of a tree of actors.

An actor is supported if somebody holds a strong handle of it outside all contexts, or if
a context keeps a sender of it whose actor is supported.  The runtime drops handles but
makes no new ones; so whoever is not supported is lost:

* `Family.Reachable.parented` — a context that keeps a sender has not been dropped, so its
  actor has not ended;
* `Family.settles` — whatever the schedule, all actors come to rest;
* **`unsupported_end`** — and then every actor that was not supported has ended, the
  children of a parent whose last handle was dropped among them.

Contexts that keep each other in a circle support each other, as reference counts do;
`Family.Supported.ancestor` says what is left to support an actor if there is no circle.
-/
import Hannibal.Children
import Hannibal.Propagation

namespace Hannibal

/-- The context is dropped in a step of its own. -/
theorem Environment.step_ctxDropped {A : Actor} {E : Environment A} {s t : Sys A} {l : Label A}
    (h : E.step s l = some t) (hl : l.dropsContext = false) (hs : s.ctxDropped = false) :
    t.ctxDropped = false := by
  cases l with
  | handle l =>
    obtain ⟨hs', ar, n, rfl⟩ := Sys.handleStep_frame h
    exact hs
  | op l =>
    obtain ⟨es, hop⟩ := Sys.opStep_cases h
    rw [(Sys.opStep_outside hop).1.ctxDropped, hs]
  | watch l =>
    obtain ⟨es, hw⟩ := Sys.watchStep_cases h
    rw [(Sys.watchStep_outside hw).1.ctxDropped, hs]
  | loop l =>
    obtain ⟨hb, es, hst⟩ := Sys.loopStep_cases h
    cases hst.leaving with
    | works hn hc | notifies o hd hp hc | releases o hd hp hc => rw [hc, hs]
    | drops hd =>
      -- before it is dropped nothing else can be done
      obtain ⟨o, hp | hp⟩ := Sys.phase_of_dropsContext hd <;>
        cases l <;>
        simp_all [step, Sys.loopStep, Sys.hook, Phase.hasContext, Sys.suspended,
          Label.dropsContext]

namespace Family

open Spawned (handleAt handleAt_eq_some totalCost worksAt)

variable {T : Type} {S : Program T} {f g : Family S}

/-- Somebody has a strong handle of the actor that no context keeps. -/
def Held (f : Family S) (k : ℕ) : Prop :=
  ∃ h hd, handleAt f.actors k h = some hd ∧ hd.kind.strong = true ∧ f.owns ⟨k, h⟩ = false

/-- The context of the actor `i` keeps a sender of the actor `k`. -/
def Keeps (f : Family S) (i k : ℕ) : Prop := ∃ s, (i, s) ∈ f.children ∧ s.id = k

/-- The actor is held, or kept by an actor that is supported: the greatest such set. -/
def Supported (f : Family S) (k : ℕ) : Prop :=
  ∃ P : ℕ → Prop, P k ∧ ∀ j, P j → f.Held j ∨ ∃ i, f.Keeps i j ∧ P i

/-- The step goes on with something that was begun. -/
def works [DecidableEq T] (f : Family S) : FamilyLabel S → Bool
  | .actor i t l => worksAt f.actors i t l
  | .spawn _ _ _ _ => false
  | .addChild _ _ => false
  | .createChild _ _ _ _ => false

/-! ### Parents run -/

/-- Who keeps a sender in its context has not dropped it. -/
def Parented (f : Family S) : Prop :=
  ∀ c ∈ f.children, ∃ x, f.actors[c.1]? = some x ∧ x.sys.ctxDropped = false

theorem Parented.step (h : f.Parented) (hk : f.Keeping) {l : FamilyLabel S}
    (hst : FamilyStep f l g) : g.Parented := by
  have hkeep : ∀ {xs : List (Spawned S)}, f.actors <+: xs → ∀ c ∈ f.children,
      ∃ x, xs[c.1]? = some x ∧ x.sys.ctxDropped = false := by
    rintro xs ⟨u, rfl⟩ c hc
    obtain ⟨x, hx, hp⟩ := h c hc
    exact ⟨x, by rw [List.getElem?_append_left (List.getElem?_eq_some_iff.mp hx).1, hx], hp⟩
  have hnew : ∀ {xs : List (Spawned S)} {i : ℕ} (s : SenderAt), f.actors <+: xs →
      f.hasContext i = true → ∀ c ∈ f.children ++ [(i, s)],
        ∃ x, xs[c.1]? = some x ∧ x.sys.ctxDropped = false := by
    intro xs i s hpre hc c hmem
    rcases List.mem_append.mp hmem with hmem | hmem
    · exact hkeep hpre c hmem
    · rw [List.mem_singleton.mp hmem]
      obtain ⟨u, rfl⟩ := hpre
      unfold hasContext at hc
      split at hc
      · next x hx =>
        refine ⟨x, by rw [List.getElem?_append_left (List.getElem?_eq_some_iff.mp hx).1, hx], ?_⟩
        rw [Bool.and_eq_true] at hc
        -- a hook or a handler has the context
        obtain ⟨a, b, hx⟩ := hk.alive i x hx
        rw [← Bool.not_eq_true]
        intro hd
        obtain ⟨o, ho⟩ := hx.unwinds.leaves hd
        cases hp : x.sys.phase <;> simp [hp, Phase.hasContext, Phase.exit?] at hc ho
      · cases hc
  cases hst with
  | spawn t E a c => exact hkeep (List.prefix_append _ _)
  | addChild i s hc hm => exact hnew s (List.prefix_refl _) hc
  | createChild i t a c hc => exact hnew _ (List.prefix_append _ _) hc
  | act i x l s hx hs ha hl =>
    intro c hc
    obtain ⟨y, hy, hp⟩ := h c hc
    by_cases hi : i = c.1
    · subst hi
      rw [hx, Option.some_inj] at hy
      subst hy
      exact ⟨_, List.getElem?_set_self (List.getElem?_eq_some_iff.mp hx).1,
        Environment.step_ctxDropped hs hl hp⟩
    · exact ⟨y, by rw [List.getElem?_set_ne hi, hy], hp⟩
  | leave i x s hx hs =>
    -- who leaves keeps nothing any more
    intro c hc
    obtain ⟨hc, hi⟩ := List.mem_filter.mp hc
    obtain ⟨y, hy, hp⟩ := h c hc
    have hi : i ≠ c.1 := by
      rintro rfl
      simp at hi
    have hk' := hk.act hx hs fun c _ _ => by simp [Label.uses]
    obtain ⟨z, hz, w, rfl, -, hw, -⟩ := sheds (hk'.childrenOf_nodup i)
      (fun s hs => hk'.held_of hs) (k := c.1) (x := y) (by rw [List.getElem?_set_ne hi, hy])
    exact ⟨_, hz, hw.trans hp⟩

theorem Reachable.parented [DecidableEq T] (h : Reachable f) : f.Parented := by
  have hinit : (init S).Keeping ∧ (init S).Parented :=
    ⟨⟨fun i x hx => by simp [init] at hx, fun c hc => (by cases hc), List.nodup_nil⟩,
      fun c hc => (by cases hc)⟩
  exact (Machine.invariant (M := system S) (P := fun f => f.Keeping ∧ f.Parented)
    (fun f l g hf hst =>
      ⟨hf.1.step (step_cases hst), hf.2.step hf.1 (step_cases hst)⟩) hinit h).2

/-! ### The runtime makes no handles -/

/-- Later `g` there are no more handles than in `f`; what a context no longer keeps is dropped. -/
structure Fewer (f g : Family S) : Prop where
  handle : ∀ i h hd, handleAt g.actors i h = some hd → handleAt f.actors i h = some hd
  children : ∀ c ∈ g.children, c ∈ f.children
  owned : ∀ s, f.owns s = true → g.owns s = false → handleAt g.actors s.id s.handle = none

theorem Fewer.refl (f : Family S) : f.Fewer f :=
  ⟨fun _ _ _ h => h, fun _ h => h, fun _ h h' => by rw [h] at h'; cases h'⟩

theorem Fewer.trans {e : Family S} (h : e.Fewer f) (h' : f.Fewer g) : e.Fewer g := by
  refine ⟨fun i j hd hh => h.handle i j hd (h'.handle i j hd hh),
    fun c hc => h.children c (h'.children c hc), fun s he hg => ?_⟩
  cases hf : f.owns s with
  | true => exact h'.owned s hf hg
  | false =>
    have hnone := h.owned s he hf
    cases hh : handleAt g.actors s.id s.handle with
    | none => rfl
    | some hd =>
      rw [h'.handle _ _ _ hh] at hnone
      cases hnone

theorem Fewer.held (h : f.Fewer g) {k : ℕ} (hk : g.Held k) : f.Held k := by
  obtain ⟨j, hd, hh, hs, ho⟩ := hk
  refine ⟨j, hd, h.handle k j hd hh, hs, ?_⟩
  by_contra hf
  have hnone := h.owned ⟨k, j⟩ (by simpa using hf) ho
  rw [hh] at hnone
  cases hnone

theorem Fewer.keeps (h : f.Fewer g) {i k : ℕ} : g.Keeps i k → f.Keeps i k
  | ⟨s, hs, hk⟩ => ⟨s, h.children _ hs, hk⟩

/-- The handles of an actor stay as they are. -/
theorem handleAt_set {xs : List (Spawned S)} {i : ℕ} {x : Spawned S} (hx : xs[i]? = some x)
    {s : Sys (S.actor x.type)} (hs : s.handles = x.sys.handles) (k h : ℕ) :
    handleAt (xs.set i { x with sys := s }) k h = handleAt xs k h := by
  unfold handleAt
  by_cases hik : i = k
  · subst hik
    rw [List.getElem?_set_self (List.getElem?_eq_some_iff.mp hx).1, hx]
    simp only [Sys.handle?, hs]
  · rw [List.getElem?_set_ne hik]

/-- A sender that is released is dropped, and no other. -/
theorem HeldAt.handleAt_release {xs : List (Spawned S)} {s : SenderAt} (hs : HeldAt xs s)
    {k h : ℕ} {hd : Handle} (hh : handleAt (Family.release xs s) k h = some hd) :
    handleAt xs k h = some hd ∧ ⟨k, h⟩ ≠ s := by
  obtain ⟨z, d, hz, -, -, heq⟩ := hs.drops
  rw [heq] at hh
  by_cases hk : s.id = k
  · subst hk
    obtain ⟨y, hy, hyh⟩ := handleAt_eq_some.mp hh
    rw [List.getElem?_set_self (List.getElem?_eq_some_iff.mp hz).1, Option.some_inj] at hy
    subst hy
    obtain ⟨hget, hal⟩ := Sys.handle?_eq_some.mp hyh
    have hne : s.handle ≠ h := by
      rintro rfl
      have hmem : (z.sys.handles.set s.handle { d with alive := false })[s.handle]? = some hd :=
        hget
      obtain ⟨hlt, hval⟩ := List.getElem?_eq_some_iff.mp hmem
      rw [List.getElem_set_self] at hval
      subst hval
      cases hal
    refine ⟨handleAt_eq_some.mpr ⟨z, hz, Sys.handle?_eq_some.mpr ⟨?_, hal⟩⟩, ?_⟩
    · rw [← hget]
      exact (List.getElem?_set_ne hne).symm
    · exact fun he => hne (congrArg SenderAt.handle he).symm
  · obtain ⟨y, hy, hyh⟩ := handleAt_eq_some.mp hh
    rw [List.getElem?_set_ne hk] at hy
    refine ⟨handleAt_eq_some.mpr ⟨y, hy, hyh⟩, ?_⟩
    rintro rfl
    exact hk rfl

theorem handleAt_foldl {xs : List (Spawned S)} {L : List SenderAt} (hn : L.Nodup)
    (hL : ∀ s ∈ L, HeldAt xs s) {k h : ℕ} {hd : Handle}
    (hh : handleAt (L.foldl Family.release xs) k h = some hd) :
    handleAt xs k h = some hd ∧ ⟨k, h⟩ ∉ L := by
  induction L generalizing xs with
  | nil => exact ⟨hh, List.not_mem_nil⟩
  | cons s L ih =>
    rw [List.nodup_cons] at hn
    have hs := hL s List.mem_cons_self
    have hrest : ∀ s' ∈ L, HeldAt (Family.release xs s) s' := by
      intro s' hs'
      refine hs.release (hL s' (List.mem_cons_of_mem _ hs')) ?_
      rintro rfl
      exact hn.1 hs'
    obtain ⟨hh', hnot⟩ := ih hn.2 hrest hh
    obtain ⟨hh'', hne⟩ := hs.handleAt_release hh'
    exact ⟨hh'', fun hmem => (List.mem_cons.mp hmem).elim hne hnot⟩

theorem Keeping.fewer_dropContext (hk : f.Keeping) (i : ℕ) : f.Fewer (f.dropContext i) := by
  have hfold : ∀ {k h hd}, handleAt (f.dropContext i).actors k h = some hd →
      handleAt f.actors k h = some hd ∧ ⟨k, h⟩ ∉ f.childrenOf i := fun hh =>
    handleAt_foldl (hk.childrenOf_nodup i) (fun s hs => hk.held_of hs) hh
  refine ⟨fun k h hd hh => (hfold hh).1, fun c hc => (List.mem_filter.mp hc).1, ?_⟩
  intro s hf hg
  cases hh : handleAt (f.dropContext i).actors s.id s.handle with
  | none => rfl
  | some hd =>
    -- it was this context that kept the sender
    refine absurd ?_ (hfold hh).2
    simp only [owns, List.any_eq_true, List.any_eq_false, decide_eq_true_eq] at hf hg
    obtain ⟨c, hc, rfl⟩ := hf
    refine List.mem_map.mpr ⟨c, List.mem_filter.mpr ⟨hc, ?_⟩, rfl⟩
    by_contra hci
    exact hg c (List.mem_filter.mpr ⟨hc, by simpa using hci⟩) rfl

/-! ### Rest -/

theorem totalCost_release {rank : ∀ t, (S.actor t).Fut → ℕ} (xs : List (Spawned S))
    (s : SenderAt) : totalCost rank (release xs s) = totalCost rank xs := by
  rw [release, List.modify_eq_set_getElem?]
  cases hx : xs[s.id]? with
  | none => rfl
  | some x =>
    have hcost : Sys.cost (rank x.type) x.env 0 ((x.sys.handleStep (.drop s.handle)).getD x.sys) =
        x.sys.cost (rank x.type) x.env 0 := by
      cases hst : x.sys.handleStep (.drop s.handle) with
      | none => rfl
      | some t => exact Sys.handleStep_cost hst
    have hsum := Table.sum_map_set (f := fun x : Spawned S => x.sys.cost (rank x.type) x.env 0)
      (b := x.onHandle (.drop s.handle)) hx
    simp only [Spawned.onHandle, hcost] at hsum
    exact Nat.add_right_cancel hsum

theorem totalCost_foldl {rank : ∀ t, (S.actor t).Fut → ℕ} (L : List SenderAt)
    (xs : List (Spawned S)) : totalCost rank (L.foldl release xs) = totalCost rank xs := by
  induction L generalizing xs with
  | nil => rfl
  | cons s L ih => rw [List.foldl_cons, ih, totalCost_release]

section Settles

variable [DecidableEq T]

theorem fewer_of_works (hk : f.Keeping) {l : FamilyLabel S} (hw : f.works l = true)
    (hst : FamilyStep f l g) : f.Fewer g := by
  have hset : ∀ {i : ℕ} {x : Spawned S} {l : Label (S.actor x.type)}
      {s : Sys (S.actor x.type)}, f.actors[i]? = some x → x.env.step x.sys l = some s →
      f.works (.actor i x.type l) = true →
      f.Fewer { f with actors := f.actors.set i { x with sys := s } } := by
    intro i x l s hx hs hw
    have hsilent : x.sys.worksSilent l = true := (Spawned.worksAt_eq hx l).symm.trans hw
    simp only [Sys.worksSilent, Bool.and_eq_true] at hsilent
    have hh := Environment.works_handles hsilent.1 hs
    refine ⟨fun k h hd hhd => ?_, fun c hc => hc, fun s' hf hg => ?_⟩
    · rwa [handleAt_set hx hh] at hhd
    · have hown : f.owns s' = false := hg
      rw [hf] at hown
      cases hown
  cases hst with
  | spawn | addChild | createChild => cases hw
  | act i x l s hx hs ha hl => exact hset hx hs hw
  | leave i x s hx hs =>
    -- the loop gives up its context, and the senders go with it
    have hk' := hk.act hx hs fun c _ _ => by simp [Label.uses]
    exact (hset hx hs hw).trans (hk'.fewer_dropContext i)

theorem descends {rank : ∀ t, (S.actor t).Fut → ℕ} (hf : ∀ t, (S.actor t).Finishing (rank t))
    {l : FamilyLabel S} (hw : f.works l = true) (hst : FamilyStep f l g) :
    totalCost rank g.actors < totalCost rank f.actors := by
  cases hst with
  | spawn | addChild | createChild => cases hw
  | act i x l s hx hs ha hl =>
    exact Spawned.totalCost_set hf hx ((Spawned.worksAt_eq hx l).symm.trans hw) hs
  | leave i x s hx hs =>
    show totalCost rank (List.foldl _ _ _) < _
    rw [totalCost_foldl]
    exact Spawned.totalCost_set hf hx ((Spawned.worksAt_eq hx _).symm.trans hw) hs

theorem Reachable.atRest (hW : ∀ t, Nonempty (S.actor t).World) (h : Reachable f)
    (hq : (system S).Quiet works f) : ∀ x ∈ f.actors, x.sys.AtRest := by
  intro x hx
  obtain ⟨i, hi⟩ := List.mem_iff_getElem?.mp hx
  refine Spawned.Alive.atRest hW (h.keeping.alive i x hi) fun l hl => ?_
  have hnone := hq (.actor i x.type l) ((Spawned.worksAt_eq hi l).trans hl)
  simpa [system, step, hi, allows, (Sys.worksSilent_uses hl).1] using hnone

/-- Whatever the schedule, all actors come to rest. -/
theorem settles (hW : ∀ t, Nonempty (S.actor t).World) {rank : ∀ t, (S.actor t).Fut → ℕ}
    (hf : ∀ t, (S.actor t).Finishing (rank t)) (h : Reachable f) :
    (system S).Inevitably works
      (fun g => Reachable g ∧ f.Fewer g ∧ ∀ x ∈ g.actors, x.sys.AtRest) f := by
  refine (Machine.inevitably_quiet Nat.lt_wfRel.wf
    (fun g : Family S => totalCost rank g.actors)
    (I := fun g => Reachable g ∧ f.Fewer g) (fun g l g' hg hl hst => ?_)
    (fun g l g' _ hw hst => descends hf hw (step_cases hst)) ⟨h, .refl f⟩).mono ?_
  · exact ⟨hg.1.trans (.single hst),
      hg.2.trans (fewer_of_works hg.1.keeping hl (step_cases hst))⟩
  · exact fun g hg => ⟨hg.1.1, hg.1.2, hg.1.1.atRest hW hg.2⟩

/-- Who runs on at rest is supported by others who do. -/
theorem Reachable.supported (h : Reachable g) (hr : ∀ x ∈ g.actors, x.sys.AtRest) {k : ℕ}
    {x : Spawned S} (hx : g.actors[k]? = some x) (hp : x.sys.phase.isEnded = false) :
    g.Supported k := by
  refine ⟨fun j => ∃ x, g.actors[j]? = some x ∧ x.sys.phase.isEnded = false, ⟨x, hx, hp⟩, ?_⟩
  rintro j ⟨y, hy, hyp⟩
  rcases (hr y (List.mem_of_getElem? hy)).loop with ⟨o, ho⟩ | ⟨-, -, hd, hmem, hal, hst⟩
  · rw [ho] at hyp
    cases hyp
  · -- somebody has a strong handle: outside the contexts, or in one that still runs
    obtain ⟨i, hi⟩ := List.mem_iff_getElem?.mp hmem
    cases hown : g.owns ⟨j, i⟩ with
    | false =>
      exact .inl ⟨i, hd, handleAt_eq_some.mpr ⟨y, hy, Sys.handle?_eq_some.mpr ⟨hi, hal⟩⟩, hst,
        hown⟩
    | true =>
      rw [owns, List.any_eq_true] at hown
      obtain ⟨c, hc, hcs⟩ := hown
      obtain ⟨z, hz, hzd⟩ := h.parented c hc
      obtain ⟨a, b, hreach⟩ := h.keeping.alive c.1 z hz
      refine .inr ⟨c.1, ⟨c.2, hc, by simp [of_decide_eq_true hcs]⟩, z, hz, ?_⟩
      cases hzp : z.sys.phase with
      | ended o =>
        rw [hreach.unwinds.ended o hzp] at hzd
        cases hzd
      | _ => rfl

end Settles

theorem Fewer.supported (h : f.Fewer g) {k : ℕ} : g.Supported k → f.Supported k
  | ⟨P, hk, hP⟩ => ⟨P, hk, fun j hj => (hP j hj).imp h.held
      fun ⟨i, hi, hPi⟩ => ⟨i, h.keeps hi, hPi⟩⟩

/-- Without a circle, somebody holds the actor or one of those above it. -/
theorem Supported.ancestor {k : ℕ} (h : f.Supported k) {ρ : ℕ → ℕ}
    (hρ : ∀ i j, f.Keeps i j → ρ i < ρ j) : ∃ r, f.Held r ∧ Relation.ReflTransGen f.Keeps r k := by
  obtain ⟨P, hk, hP⟩ := h
  induction hn : ρ k using Nat.strong_induction_on generalizing k with
  | _ n ih =>
    -- up the tree, the depth `ρ` descends
    rcases hP k hk with hh | ⟨i, hi, hPi⟩
    · exact ⟨k, hh, .refl⟩
    · obtain ⟨r, hr, hrk⟩ := ih (ρ i) (hn ▸ hρ i k hi) hPi rfl
      exact ⟨r, hr, hrk.tail hi⟩

end Family

/-- **Whoever is not supported comes to its end.**  Whoever schedules the actors and their
operations, all of them come to rest, and those that neither anybody outside the contexts
nor the context of a supported actor holds have ended; if well and without a `Stop`, after
everything that was accepted. -/
theorem unsupported_end {T : Type} [DecidableEq T] {S : Program T}
    (hW : ∀ t, Nonempty (S.actor t).World) {rank : ∀ t, (S.actor t).Fut → ℕ}
    (hf : ∀ t, (S.actor t).Finishing (rank t)) {f : Family S} (h : Family.Reachable f) :
    (Family.system S).Inevitably Family.works
      (fun g => (∀ x ∈ g.actors, x.sys.AtRest) ∧
        ∀ k x, g.actors[k]? = some x → ¬ f.Supported k → (∃ o, x.sys.phase = .ended o) ∧
          ∀ b, x.sys.phase = .ended (.ok b) → x.env.stream = none →
            (∀ e ∈ accepted x.sys.trace, e.payload ≠ .stop) →
              concluded x.sys.trace = (accepted x.sys.trace).filterMap Envelope.work?) f := by
  refine (Family.settles hW hf h).mono ?_
  rintro g ⟨hg, hfew, hrest⟩
  refine ⟨hrest, fun k x hx hns => ⟨?_, fun b hb hs hn => ?_⟩⟩
  · cases hp : x.sys.phase with
    | ended o => exact ⟨o, rfl⟩
    | _ =>
      refine absurd (hfew.supported (hg.supported hrest hx ?_)) hns
      rw [hp]
      rfl
  · obtain ⟨a, c, hreach⟩ := hg.keeping.alive k x hx
    exact hreach.concluded_at_end hs hb hn

namespace Patient

/-- An actor creates a child, and the only handle of the parent is dropped. -/
def orphans : List (FamilyLabel listeners) :=
  [.spawn () plain (0 : ℕ) (), .createChild 0 () (0 : ℕ) (), .actor 0 () (.handle (.drop 0))]

end Patient

/-- The child outlives its parent, but not for long. -/
theorem unsupported_end_of_orphans : ∃ f,
    (Family.system Patient.listeners).run (Family.init _) Patient.orphans = some f ∧
      f.children = [(0, ⟨1, 1⟩)] ∧ (Family.system Patient.listeners).Inevitably Family.works
        (fun g => ∀ (k : ℕ) (x : Spawned Patient.listeners), g.actors[k]? = some x →
          ∃ o, x.sys.phase = .ended o) f := by
  obtain ⟨f, hf, hc, hno⟩ : ∃ f,
      (Family.system Patient.listeners).run (Family.init _) Patient.orphans = some f ∧
      f.children = [(0, ⟨1, 1⟩)] ∧ ∀ k, ¬ f.Held k := by
    refine ⟨_, rfl, rfl, ?_⟩
    rintro k ⟨h, hd, hh, hs, ho⟩
    -- the handle is dropped, does not exist or is the sender that the parent keeps
    rcases k with _ | _ | k <;> rcases h with _ | _ | h <;>
      first
        | exact absurd (show none = some hd from hh) (by simp)
        | exact absurd (show true = false from ho) (by simp)
  refine ⟨f, hf, hc, (unsupported_end (fun _ => ⟨()⟩) (fun _ => Patient.finishing)
    ⟨_, hf⟩).mono fun g hg k x hx => (hg.2 k x hx ?_).1⟩
  intro hs
  obtain ⟨r, hr, -⟩ := hs.ancestor (ρ := id) (by rintro i j ⟨s, hs, rfl⟩; simp_all)
  exact hno r hr

end Hannibal
