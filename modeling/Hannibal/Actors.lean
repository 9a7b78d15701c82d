/-
The actors of a program.

A component that runs next to the actors sees them as a list of systems, each
with its own kind of actor.  It owns some of their handles and takes steps of
them itself; all other steps belong to the environment.

`Spawned.Leads` says that an actor went on, `Spawned.Later` that all of them
did and that the handles the component owns are as they were.  What goes on
keeps its end (`Leads.hasEnded`), its trace (`Leads.trace`) and, once both
transmitters cannot be upgraded, loses them for good (`Leads.upgrade_none`).
-/
import Hannibal.Completion
import Hannibal.References

open scoped List

namespace Hannibal

/-- The actor types of a program, with the context a fresh actor gets. -/
structure Program (T : Type) where
  actor : T → Actor
  ctx : ∀ t, (actor t).Ctx

/-- An actor that was spawned; `type` is the `TypeId` of its `Addr`. -/
structure Spawned {T : Type} (S : Program T) where
  type : T
  env : Environment (S.actor type)
  sys : Sys (S.actor type)

/-- The event loop has ended: its stop notifier is used up. -/
def Sys.hasEnded {A : Actor} (s : Sys A) : Bool :=
  match s.running.inner with
  | .pending => false
  | _ => true

/-- The handle that a step uses. -/
def Label.uses {A : Actor} : Label A → Option ℕ
  | .handle (.derive h _) => some h
  | .handle (.upgrade h) => some h
  | .handle (.drop h) => some h
  | .op (.begin _ h) => some h
  | .watch (.await h) => some h
  | .watch (.join h) => some h
  | _ => none

namespace Spawned

variable {T : Type} {S : Program T}

/-- A step of one of the actor's handles. -/
def onHandle (x : Spawned S) (l : HandleLabel) : Spawned S :=
  { x with sys := (x.sys.handleStep l).getD x.sys }

/-- The handle `h` of the actor `i`, as long as it is not dropped. -/
def handleAt (xs : List (Spawned S)) (i h : ℕ) : Option Handle :=
  match xs[i]? with
  | some x => x.sys.handle? h
  | none => none

end Spawned

/-! ### One actor -/

namespace Environment

variable {A : Actor} {E : Environment A} {s t : Sys A}

/-- A step adds handles or changes the one that it drops or awaits. -/
theorem step_handles {l : Label A} (h : E.step s l = some t) :
    (∃ u, t.handles = s.handles ++ u) ∨
      ∃ i hd, (l = .handle (.drop i) ∨ l = .watch (.await i)) ∧
        t.handles = s.handles.set i hd := by
  have hsame : t.handles = s.handles → (∃ u, t.handles = s.handles ++ u) ∨
      ∃ i hd, (l = .handle (.drop i) ∨ l = .watch (.await i)) ∧
        t.handles = s.handles.set i hd :=
    fun he => .inl ⟨[], he.trans (List.append_nil _).symm⟩
  cases l with
  | handle l =>
    simp only [step] at h
    cases l with
    | derive j k =>
      simp only [Sys.handleStep] at h
      split at h
      · split at h
        · cases h
          exact .inl ⟨_, rfl⟩
        · cases h
      · cases h
    | upgrade j =>
      simp only [Sys.handleStep] at h
      split at h
      · split at h
        · cases h
          exact .inl ⟨_, rfl⟩
        · cases h
      · cases h
    | contextHandle k =>
      simp only [Sys.handleStep] at h
      split at h
      · cases k <;> simp only [Sys.contextHandle, Option.map_eq_some_iff, reduceCtorEq] at h
        · obtain ⟨k, -, rfl⟩ := h
          exact .inl ⟨_, rfl⟩
        · cases h
          exact .inl ⟨_, rfl⟩
        · cases h
          exact .inl ⟨_, rfl⟩
      · cases h
    | drop j =>
      simp only [Sys.handleStep] at h
      split at h
      · split at h
        · cases h
        · cases h
          exact .inr ⟨j, _, .inl rfl, rfl⟩
      · cases h
  | op l =>
    obtain ⟨es, h⟩ := Sys.opStep_cases h
    cases h <;> exact hsame rfl
  | loop l =>
    obtain ⟨-, es, h⟩ := Sys.loopStep_cases h
    exact hsame h.untouched.handles
  | watch l =>
    simp only [step] at h
    cases l with
    | await j =>
      simp only [Sys.watchStep] at h
      split at h
      · split at h
        · split at h
          · cases h
            exact .inr ⟨j, _, .inr rfl, rfl⟩
          · cases h
        · cases h
      · cases h
    | join j =>
      simp only [Sys.watchStep] at h
      split at h
      · split at h
        · cases h
          exact hsame rfl
        · cases h
      · cases h
    | pollJoin j =>
      simp only [Sys.watchStep, Sys.pollJoin] at h
      split at h
      · split at h
        · split at h <;> cases h <;> exact hsame rfl
        · cases h
          exact hsame rfl
      · obtain ⟨out, -, rfl⟩ := Option.map_eq_some_iff.mp h
        exact hsame rfl
      · cases h
    | dropJoin j =>
      simp only [Sys.watchStep] at h
      split at h
      · cases h
      · cases h
        exact hsame rfl
      · cases h

/-- A handle stays as it is in a step that neither drops nor awaits it. -/
theorem step_handle {l : Label A} (h : E.step s l = some t) {i : ℕ} {hd : Handle}
    (hi : s.handle? i = some hd) (hdrop : l ≠ .handle (.drop i)) (hawait : l ≠ .watch (.await i)) :
    t.handle? i = some hd := by
  rw [Sys.handle?_eq_some] at hi ⊢
  refine ⟨?_, hi.2⟩
  rcases step_handles h with ⟨u, ht⟩ | ⟨j, hd', hl, ht⟩
  · rw [ht, List.getElem?_append_left (List.getElem?_eq_some_iff.mp hi.1).1, hi.1]
  · have hij : j ≠ i := by
      rintro rfl
      exact hl.elim hdrop hawait
    rw [ht, List.getElem?_set_ne hij, hi.1]

theorem step_handles_length {l : Label A} (h : E.step s l = some t) :
    s.handles.length ≤ t.handles.length := by
  rcases step_handles h with ⟨u, ht⟩ | ⟨j, hd', -, ht⟩
  · rw [ht, List.length_append]
    omega
  · rw [ht, List.length_set]

/-- An operation stays the operation it is. -/
theorem step_op {l : Label A} (h : E.step s l = some t) {j : ℕ} {o : Op A}
    (hj : s.ops[j]? = some o) : ∃ o', t.ops[j]? = some o' ∧ o'.method = o.method := by
  obtain ⟨es, hes⟩ := step_cases h
  rcases hes.outside with ⟨-, he⟩ | ⟨-, hl⟩
  · exact he.op hj
  · exact ⟨o, hl.untouched.ops ▸ hj, rfl⟩

/-- An operation that begins gets the next index. -/
theorem step_begin {m : Method A} {j : ℕ} (h : E.step s (.op (.begin m j)) = some t) :
    ∃ o, o.method = m ∧ t.ops = s.ops ++ [o] ∧
      ∃ es, t.trace = s.trace ++ .began s.ops.length :: es := by
  cases Sys.opStep_labels (show s.opStep (.begin m j) = some t from h) with
  | begin | upgraded | refused => exact ⟨_, rfl, rfl, _, rfl⟩
  | move l k o st hl => simp at hl

namespace Reachable

variable {a : A.State} {c : A.Ctx}

theorem hasEnded_iff (h : E.Reachable a c s) : s.hasEnded = true ↔ s.phase.notice ≠ .pending := by
  rw [← h.notified.inner, Sys.hasEnded]
  cases s.running.inner <;> simp

theorem next (h : E.Reachable a c s) {l : Label A} (hst : E.step s l = some t) :
    E.Reachable a c t :=
  h.trans (.single hst)

/-- An actor that ended stays ended. -/
theorem hasEnded_step (h : E.Reachable a c s) {l : Label A} (hst : E.step s l = some t)
    (he : s.hasEnded = true) : t.hasEnded = true := by
  obtain ⟨es, hes⟩ := step_cases hst
  rcases hes.outside with ⟨ho, -⟩ | ⟨-, hl⟩
  · rwa [Sys.hasEnded, ho.inner]
  · rw [h.hasEnded_iff] at he
    rw [(h.next hst).hasEnded_iff]
    cases hl.exits with
    | stays hs => exact absurd hs he
    | notifies o hs => exact absurd (by rw [hs]; rfl) he
    | drops ht => rwa [ht]
    | releases o hs ht =>
      rw [ht]
      rwa [hs] at he

/-- What can be peeked is there since an awaiter resolved, and so after the end. -/
theorem peek_isSome (h : E.Reachable a c s) (b : Bool) : (s.running.peek b).isSome = true ↔
    b = false ∧ ∃ i r, .resolved i r ∈ s.trace := by
  have ha : s.running.output ≠ none ↔ ∃ i r, .resolved i r ∈ s.trace := h.awaited
  rw [← ha]
  cases b <;> simp [Shared.peek, Option.isSome_iff_ne_none]

theorem hasEnded_of_peek (h : E.Reachable a c s) {b : Bool}
    (hp : (s.running.peek b).isSome = true) : s.hasEnded = true := by
  obtain ⟨r, hr⟩ := Option.isSome_iff_exists.mp hp
  have := (Shared.peek_faithful h.notified.faithful hr).2
  rw [Sys.hasEnded]
  cases hi : s.running.inner <;> simp [hi, Oneshot.poll] at this ⊢

end Reachable

end Environment

/-! ### One actor among others -/

namespace Spawned

variable {T : Type} {S : Program T} {x y z : Spawned S}

/-- An actor is one that was spawned and went on from there. -/
def Alive (x : Spawned S) : Prop := ∃ a c, x.env.Reachable a c x.sys

/-- The actor went on. -/
def Leads (x y : Spawned S) : Prop :=
  ∃ s, y = { x with sys := s } ∧ x.env.system.Reaches x.sys s

namespace Leads

theorem refl (x : Spawned S) : x.Leads x := ⟨x.sys, rfl, .refl _ _⟩

theorem trans (h : x.Leads y) (h' : y.Leads z) : x.Leads z := by
  obtain ⟨s, rfl, hs⟩ := h
  obtain ⟨t, rfl, ht⟩ := h'
  exact ⟨t, rfl, hs.trans ht⟩

theorem of_step {l : Label (S.actor x.type)} {s : Sys (S.actor x.type)}
    (h : x.env.step x.sys l = some s) : x.Leads { x with sys := s } :=
  ⟨s, rfl, .single h⟩

theorem of_onHandle (x : Spawned S) (l : HandleLabel) : x.Leads (x.onHandle l) := by
  unfold onHandle
  cases h : x.sys.handleStep l with
  | none => exact refl x
  | some s => exact of_step (l := .handle l) h

theorem alive (h : x.Leads y) (hx : x.Alive) : y.Alive := by
  obtain ⟨s, rfl, hs⟩ := h
  obtain ⟨a, c, hr⟩ := hx
  exact ⟨a, c, hr.trans hs⟩

theorem type (h : x.Leads y) : y.type = x.type := by
  obtain ⟨s, rfl, -⟩ := h
  rfl

/-- What the steps of a living actor keep is kept while it goes on. -/
theorem induction (h : x.Leads y) (hx : x.Alive) {P : Spawned S → Prop} (h0 : P x)
    (hstep : ∀ (s : Sys (S.actor x.type)) l t a c, x.env.Reachable a c s → x.env.step s l = some t →
      P { x with sys := s } → P { x with sys := t }) : P y := by
  obtain ⟨s, rfl, hs⟩ := h
  obtain ⟨a, c, hr⟩ := hx
  refine (Machine.invariant (P := fun s => x.env.Reachable a c s ∧ P { x with sys := s })
    (fun s l t hP hst => ?_) ⟨hr, h0⟩ hs).2
  exact ⟨hP.1.next hst, hstep s l t a c hP.1 hst hP.2⟩

theorem hasEnded (h : x.Leads y) (hx : x.Alive) (he : x.sys.hasEnded = true) :
    y.sys.hasEnded = true :=
  h.induction hx (P := fun y => y.sys.hasEnded = true) he
    fun _ _ _ _ _ hr hst => hr.hasEnded_step hst

theorem handles_length (h : x.Leads y) (hx : x.Alive) :
    x.sys.handles.length ≤ y.sys.handles.length :=
  h.induction hx (P := fun y => x.sys.handles.length ≤ y.sys.handles.length) (le_refl _)
    fun _ _ _ _ _ _ hst hle => hle.trans (Environment.step_handles_length hst)

/-- What is recorded stays recorded. -/
theorem trace (h : x.Leads y) (hx : x.Alive) :
    ∃ s, y = { x with sys := s } ∧ x.sys.trace <+: s.trace := by
  refine h.induction hx (P := fun y => ∃ s, y = { x with sys := s } ∧ x.sys.trace <+: s.trace)
    ⟨x.sys, rfl, List.prefix_refl _⟩ fun s l t a c hr hst hs => ⟨t, rfl, ?_⟩
  obtain ⟨s, he, hs⟩ := hs
  cases he
  obtain ⟨es, hes⟩ := Environment.step_cases hst
  exact hes.trace ▸ hs.trans (List.prefix_append _ _)

theorem op (h : x.Leads y) (hx : x.Alive) {j : ℕ} {o : Op (S.actor x.type)}
    (hj : x.sys.ops[j]? = some o) : ∃ s, y = { x with sys := s } ∧
      ∃ o', s.ops[j]? = some o' ∧ o'.method = o.method := by
  refine h.induction hx (P := fun y => ∃ s, y = { x with sys := s } ∧
      ∃ o', s.ops[j]? = some o' ∧ o'.method = o.method)
    ⟨x.sys, rfl, o, hj, rfl⟩ fun s l t a c hr hst hs => ⟨t, rfl, ?_⟩
  obtain ⟨s, he, o', hj', hm⟩ := hs
  cases he
  obtain ⟨o'', hj'', hm'⟩ := Environment.step_op hst hj'
  exact ⟨o'', hj'', hm'.trans hm⟩

/-- A weak sender that cannot be upgraded never can again. -/
theorem upgrade_none (h : x.Leads y) (hx : x.Alive)
    (hu : x.sys.arcs.upgrade .weakSender = none) : y.sys.arcs.upgrade .weakSender = none := by
  refine h.induction hx (P := fun y => y.sys.arcs.upgrade .weakSender = none) hu
    fun s l t a c hr hst hs => ?_
  obtain ⟨es, hes⟩ := Environment.step_cases hst
  obtain ⟨htx, hforce⟩ := hr.counted.revives hes
  simp only [Arcs.upgrade, ite_eq_right_iff, reduceCtorEq, imp_false, not_and] at hs ⊢
  exact fun ht hf => hs (htx ht) (hforce hf)

end Leads

theorem onHandle_running (x : Spawned S) (l : HandleLabel) :
    (x.onHandle l).sys.running = x.sys.running := by
  unfold onHandle
  cases h : x.sys.handleStep l with
  | none => rfl
  | some s =>
    obtain ⟨hl, ar, n, rfl⟩ := Sys.handleStep_frame h
    rfl

theorem onHandle_hasEnded (x : Spawned S) (l : HandleLabel) :
    (x.onHandle l).sys.hasEnded = x.sys.hasEnded := by
  unfold Sys.hasEnded
  rw [onHandle_running]

/-- Only dropping a handle changes it. -/
theorem onHandle_keeps {l : HandleLabel} {i : ℕ} {hd : Handle} (h : x.sys.handle? i = some hd)
    (hl : l ≠ .drop i) : (x.onHandle l).sys.handle? i = some hd := by
  unfold onHandle
  cases hs : x.sys.handleStep l with
  | none => exact h
  | some s =>
    refine Environment.step_handle (E := x.env) (l := .handle l) hs h (fun he => hl ?_) nofun
    exact Label.handle.inj he

theorem onHandle_derive {j : ℕ} {k : HandleKind} {hd : Handle} (h : x.sys.handle? j = some hd)
    (hk : hd.kind.derives k = true) :
    (x.onHandle (.derive j k)).sys.handles = x.sys.handles ++ [⟨k, true, hd.spent⟩] := by
  simp [onHandle, Sys.handleStep, h, hk, Sys.addHandle]

theorem onHandle_upgrade {j : ℕ} {k : HandleKind} {hd : Handle} (h : x.sys.handle? j = some hd)
    (hk : x.sys.arcs.upgrade hd.kind = some k) :
    (x.onHandle (.upgrade j)).sys.handles = x.sys.handles ++ [⟨k, true, hd.spent⟩] := by
  simp [onHandle, Sys.handleStep, h, hk, Sys.addHandle]

end Spawned

/-! ### All actors -/

namespace Spawned

variable {T : Type} {S : Program T} {xs ys zs : List (Spawned S)} {P Q : ℕ → ℕ → Prop}

/-- The actors went on, some were spawned, and the handles that `P` holds of are
as they were. -/
structure Later (P : ℕ → ℕ → Prop) (xs ys : List (Spawned S)) : Prop where
  actor : ∀ (i : ℕ) (x : Spawned S), xs[i]? = some x → ∃ y : Spawned S, ys[i]? = some y ∧ x.Leads y
  fresh : ∀ (i : ℕ) (y : Spawned S), xs[i]? = none → ys[i]? = some y → y.Alive
  keeps : ∀ (i h : ℕ) (hd : Handle), P i h → handleAt xs i h = some hd → handleAt ys i h = some hd

theorem handleAt_eq_some {i h : ℕ} {hd : Handle} :
    handleAt xs i h = some hd ↔ ∃ x, xs[i]? = some x ∧ x.sys.handle? h = some hd := by
  unfold handleAt
  cases xs[i]? <;> simp

namespace Later

theorem refl (P : ℕ → ℕ → Prop) (xs : List (Spawned S)) : Later P xs xs :=
  ⟨fun _ x hx => ⟨x, hx, .refl x⟩, fun _ _ hn hy => absurd (hn.symm.trans hy) nofun,
    fun _ _ _ _ h => h⟩

theorem trans (h : Later P xs ys) (h' : Later P ys zs) : Later P xs zs := by
  refine ⟨fun i x hx => ?_, fun i z hn hz => ?_, fun i j hd hP hh =>
    h'.keeps i j hd hP (h.keeps i j hd hP hh)⟩
  · obtain ⟨y, hy, hxy⟩ := h.actor i x hx
    obtain ⟨z, hz, hyz⟩ := h'.actor i y hy
    exact ⟨z, hz, hxy.trans hyz⟩
  · cases hy : ys[i]? with
    | none => exact h'.fresh i z hy hz
    | some y =>
      obtain ⟨w, hw, hyw⟩ := h'.actor i y hy
      rw [hz, Option.some_inj] at hw
      exact hw ▸ hyw.alive (h.fresh i y hn hy)

theorem mono (h : Later P xs ys) (hQ : ∀ i j, Q i j → P i j) : Later Q xs ys :=
  ⟨h.actor, h.fresh, fun i j hd hq => h.keeps i j hd (hQ i j hq)⟩

theorem alive (h : Later P xs ys) (hx : ∀ (i : ℕ) (x : Spawned S), xs[i]? = some x → x.Alive) :
    ∀ (i : ℕ) (y : Spawned S), ys[i]? = some y → y.Alive := by
  intro i y hy
  cases hi : xs[i]? with
  | none => exact h.fresh i y hi hy
  | some x =>
    obtain ⟨z, hz, hxz⟩ := h.actor i x hi
    rw [hy, Option.some_inj] at hz
    exact hz ▸ hxz.alive (hx i x hi)

theorem spawn {x : Spawned S} (hx : x.Alive) : Later P xs (xs ++ [x]) := by
  have hold : ∀ (i : ℕ) (y : Spawned S), xs[i]? = some y → (xs ++ [x])[i]? = some y := by
    intro i y hy
    rw [List.getElem?_append_left (List.getElem?_eq_some_iff.mp hy).1, hy]
  refine ⟨fun i y hy => ⟨y, hold i y hy, .refl y⟩, fun i y hn hy => ?_, fun i h hd _ hh => ?_⟩
  · rw [List.getElem?_append_right (List.getElem?_eq_none_iff.mp hn), List.getElem?_singleton] at hy
    split at hy
    · cases hy
      exact hx
    · cases hy
  · obtain ⟨y, hy, hyh⟩ := handleAt_eq_some.mp hh
    exact handleAt_eq_some.mpr ⟨y, hold i y hy, hyh⟩

/-- The actor `i` went on as `y`. -/
theorem set {i : ℕ} {x y : Spawned S} (hx : xs[i]? = some x) (hxy : x.Leads y)
    (hk : ∀ h hd, P i h → x.sys.handle? h = some hd → y.sys.handle? h = some hd) :
    Later P xs (xs.set i y) := by
  have hi := (List.getElem?_eq_some_iff.mp hx).1
  refine ⟨fun j z hz => ?_, fun j z hn hz => ?_, fun j h hd hP hh => ?_⟩
  · by_cases hij : i = j
    · subst hij
      rw [hx, Option.some_inj] at hz
      exact ⟨y, List.getElem?_set_self hi, hz ▸ hxy⟩
    · exact ⟨z, (List.getElem?_set_ne hij).trans hz, .refl z⟩
  · have hlen := (List.getElem?_eq_some_iff.mp hz).1
    rw [List.length_set] at hlen
    rw [List.getElem?_eq_none_iff] at hn
    omega
  · obtain ⟨z, hz, hzh⟩ := handleAt_eq_some.mp hh
    rw [handleAt_eq_some]
    by_cases hij : i = j
    · subst hij
      rw [hx, Option.some_inj] at hz
      subst hz
      exact ⟨y, List.getElem?_set_self hi, hk h hd hP hzh⟩
    · exact ⟨z, (List.getElem?_set_ne hij).trans hz, hzh⟩

/-- A step of a handle of the actor `i`. -/
theorem onHandle (xs : List (Spawned S)) (i : ℕ) (l : HandleLabel)
    (hP : ∀ h, P i h → l ≠ .drop h) : Later P xs (xs.modify i (·.onHandle l)) := by
  cases hx : xs[i]? with
  | none =>
    rw [List.modify_eq_self (List.getElem?_eq_none_iff.mp hx)]
    exact refl P xs
  | some x =>
    have hset : xs.modify i (·.onHandle l) = xs.set i (x.onHandle l) := by
      rw [List.modify_eq_set_getElem?, hx]
      rfl
    rw [hset]
    exact set hx (.of_onHandle x l) fun h hd hp hh => onHandle_keeps hh (hP h hp)

end Later

end Spawned

end Hannibal
