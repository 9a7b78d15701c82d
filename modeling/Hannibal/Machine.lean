/-
Labelled machines and what holds along their runs.

A machine has one partial step function; every choice the environment makes
(which client moves, which branch a `select!` takes, what a handler sees) is
in the label, so a run is a list of labels and can be evaluated:

* `Machine.invariant` — what one step preserves holds along every run;
* `Machine.Reaches.turn` — the step at which something comes to hold;
* `Machine.simulation` — a simulation of single steps, each answered by a run
  of the other machine, carries over to whole runs;
* `Machine.invariant_along` — what steps of a kind preserve holds along the runs
  that take only such steps;
* `Machine.along_of_end` — what the end of a run says of its steps;
* `Machine.only` — the runs that take certain labels only.
-/
import Mathlib.Data.List.Basic

/-- A labelled machine: `step s l` is the state after `l`, or `none` where `l`
is not enabled in `s`. -/
structure Machine (σ ℓ : Type*) where
  step : σ → ℓ → Option σ

namespace Machine

variable {σ τ ℓ κ : Type*}

/-- Take the labels one after the other; `none` if one of them is not enabled. -/
def run (M : Machine σ ℓ) : σ → List ℓ → Option σ
  | s, [] => some s
  | s, l :: ls =>
    match M.step s l with
    | none => none
    | some t => run M t ls

@[simp] theorem run_nil (M : Machine σ ℓ) (s : σ) : M.run s [] = some s := rfl

theorem run_cons {M : Machine σ ℓ} {s u : σ} {l : ℓ} {ls : List ℓ} :
    M.run s (l :: ls) = some u ↔ ∃ t, M.step s l = some t ∧ M.run t ls = some u := by
  rw [run]
  cases h : M.step s l <;> simp

theorem run_append {M : Machine σ ℓ} {u : σ} : ∀ {s : σ} {ls ks : List ℓ},
    M.run s (ls ++ ks) = some u ↔ ∃ t, M.run s ls = some t ∧ M.run t ks = some u := by
  intro s ls
  induction ls generalizing s with
  | nil =>
    intro ks
    simp
  | cons l ls ih =>
    intro ks
    rw [List.cons_append, run_cons]
    constructor
    · rintro ⟨t, ht, hu⟩
      obtain ⟨v, hv, hu⟩ := ih.mp hu
      refine ⟨v, ?_, hu⟩
      rw [run_cons]
      exact ⟨t, ht, hv⟩
    · rintro ⟨v, hv, hu⟩
      rw [run_cons] at hv
      obtain ⟨t, ht, hv⟩ := hv
      exact ⟨t, ht, ih.mpr ⟨v, hv, hu⟩⟩

/-- Some run leads from `s` to `t`. -/
def Reaches (M : Machine σ ℓ) (s t : σ) : Prop := ∃ ls, M.run s ls = some t

theorem Reaches.refl (M : Machine σ ℓ) (s : σ) : M.Reaches s s := ⟨[], rfl⟩

theorem Reaches.single {M : Machine σ ℓ} {s t : σ} {l : ℓ} (h : M.step s l = some t) :
    M.Reaches s t := by
  refine ⟨[l], ?_⟩
  rw [run_cons]
  exact ⟨t, h, rfl⟩

theorem Reaches.trans {M : Machine σ ℓ} {s t u : σ} (h : M.Reaches s t)
    (h' : M.Reaches t u) : M.Reaches s u := by
  obtain ⟨ls, h⟩ := h
  obtain ⟨ks, h'⟩ := h'
  refine ⟨ls ++ ks, ?_⟩
  rw [run_append]
  exact ⟨t, h, h'⟩

/-- What holds at the start and is preserved by every step holds along every
run. -/
theorem invariant {M : Machine σ ℓ} {P : σ → Prop}
    (hstep : ∀ s l t, P s → M.step s l = some t → P t) :
    ∀ {s t : σ}, P s → M.Reaches s t → P t := by
  rintro s t hs ⟨ls, h⟩
  induction ls generalizing s with
  | nil =>
    rw [run_nil, Option.some_inj] at h
    exact h ▸ hs
  | cons l ls ih =>
    rw [run_cons] at h
    obtain ⟨u, hu, h⟩ := h
    exact ih (hstep s l u hs hu) h

/-- Where something comes to hold along a run there is a step at which it does. -/
theorem Reaches.turn {M : Machine σ ℓ} {P : σ → Prop} {s t : σ} (h : M.Reaches s t) (hs : ¬ P s)
    (ht : P t) : ∃ u l v, M.Reaches s u ∧ ¬ P u ∧ M.step u l = some v ∧ P v ∧ M.Reaches v t := by
  obtain ⟨ls, h⟩ := h
  induction ls generalizing s with
  | nil =>
    rw [run_nil, Option.some_inj] at h
    exact absurd (h ▸ ht) hs
  | cons l ls ih =>
    rw [run_cons] at h
    obtain ⟨v, hv, h⟩ := h
    by_cases hP : P v
    · exact ⟨s, l, v, .refl M s, hs, hv, hP, ls, h⟩
    · obtain ⟨u, k, w, hu, hn, hw, hPw, hwt⟩ := ih hP h
      exact ⟨u, k, w, (Reaches.single hv).trans hu, hn, hw, hPw, hwt⟩

/-- If `N` answers every step of `M` by a run that keeps the states related,
then it answers every run of `M`. -/
theorem simulation {M : Machine σ ℓ} {N : Machine τ κ} {R : σ → τ → Prop}
    (hstep : ∀ s l s' t, R s t → M.step s l = some s' → ∃ t', N.Reaches t t' ∧ R s' t') :
    ∀ {s s' : σ} {t : τ}, R s t → M.Reaches s s' → ∃ t', N.Reaches t t' ∧ R s' t' := by
  rintro s s' t hR ⟨ls, h⟩
  induction ls generalizing s t with
  | nil =>
    rw [run_nil, Option.some_inj] at h
    exact ⟨t, Reaches.refl N t, h ▸ hR⟩
  | cons l ls ih =>
    rw [run_cons] at h
    obtain ⟨u, hu, h⟩ := h
    obtain ⟨v, hv, hR'⟩ := hstep s l u t hR hu
    obtain ⟨t', ht', hR''⟩ := ih hR' h
    exact ⟨t', hv.trans ht', hR''⟩

/-- Every step of the run satisfies `C`; a label that is not enabled ends it. -/
def Along (M : Machine σ ℓ) (C : σ → ℓ → σ → Prop) : σ → List ℓ → Prop
  | _, [] => True
  | s, l :: ls =>
    match M.step s l with
    | none => True
    | some t => C s l t ∧ Along M C t ls

theorem along_cons {M : Machine σ ℓ} {C : σ → ℓ → σ → Prop} {s : σ} {l : ℓ} {ls : List ℓ} :
    M.Along C s (l :: ls) ↔ ∀ t, M.step s l = some t → C s l t ∧ M.Along C t ls := by
  rw [Along]
  cases h : M.step s l <;> simp

theorem along_of_forall {M : Machine σ ℓ} {C : ℓ → Prop} {s : σ} {ls : List ℓ}
    (h : ∀ l ∈ ls, C l) : M.Along (fun _ l _ => C l) s ls := by
  induction ls generalizing s with
  | nil => exact trivial
  | cons l ls ih =>
    rw [along_cons]
    intro t _
    exact ⟨h l (by simp), ih fun l' hl' => h l' (by simp [hl'])⟩

theorem along_and {M : Machine σ ℓ} {C D : σ → ℓ → σ → Prop} {s : σ} {ls : List ℓ}
    (hC : M.Along C s ls) (hD : M.Along D s ls) :
    M.Along (fun s l t => C s l t ∧ D s l t) s ls := by
  induction ls generalizing s with
  | nil => exact trivial
  | cons l ls ih =>
    rw [along_cons] at hC hD ⊢
    intro t ht
    obtain ⟨hc, hC⟩ := hC t ht
    obtain ⟨hd, hD⟩ := hD t ht
    exact ⟨⟨hc, hd⟩, ih hC hD⟩

/-- The condition holds of the step that follows on a part of the run. -/
theorem Along.at_step {M : Machine σ ℓ} {C : σ → ℓ → σ → Prop} {s t u : σ} {l : ℓ}
    {ls ks : List ℓ} (h : M.Along C s (ls ++ l :: ks)) (hr : M.run s ls = some t)
    (hs : M.step t l = some u) : C t l u := by
  induction ls generalizing s with
  | nil =>
    rw [run_nil, Option.some_inj] at hr
    subst hr
    rw [List.nil_append, along_cons] at h
    exact (h u hs).1
  | cons k ls ih =>
    rw [run_cons] at hr
    rw [List.cons_append, along_cons] at h
    obtain ⟨v, hv, hr⟩ := hr
    exact ih (h v hv).2 hr

/-- Conditions that agree on the steps of reachable states agree along runs. -/
theorem along_congr {M : Machine σ ℓ} {P : σ → Prop} {C D : σ → ℓ → σ → Prop}
    (hinv : ∀ s l t, P s → M.step s l = some t → P t)
    (hCD : ∀ s l t, P s → M.step s l = some t → (C s l t ↔ D s l t)) :
    ∀ {s : σ} {ls : List ℓ}, P s → (M.Along C s ls ↔ M.Along D s ls) := by
  intro s ls hs
  induction ls generalizing s with
  | nil => exact Iff.rfl
  | cons l ls ih =>
    rw [along_cons, along_cons]
    refine forall_congr' fun t => imp_congr_right fun ht => ?_
    exact and_congr (hCD s l t hs ht) (ih (hinv s l t hs ht))

/-- What cannot be regained once it is lost, and held at the end of a run, held all along
it: every step of the run led to a state in which it holds. -/
theorem along_of_end {M : Machine σ ℓ} {I P : σ → Prop} {C : σ → ℓ → σ → Prop}
    (hinv : ∀ s l t, I s → M.step s l = some t → I t)
    (hback : ∀ s l t, I s → M.step s l = some t → P t → P s)
    (hC : ∀ s l t, I s → M.step s l = some t → P t → C s l t) :
    ∀ {s t : σ} {ls : List ℓ}, I s → M.run s ls = some t → P t → M.Along C s ls ∧ P s := by
  intro s t ls hs h ht
  induction ls generalizing s with
  | nil =>
    rw [run_nil, Option.some_inj] at h
    exact ⟨trivial, h ▸ ht⟩
  | cons l ls ih =>
    rw [run_cons] at h
    obtain ⟨u, hu, h⟩ := h
    obtain ⟨hal, hPu⟩ := ih (hinv s l u hs hu) h
    refine ⟨?_, hback s l u hs hu hPu⟩
    rw [along_cons]
    intro v hv
    obtain rfl := Option.some_inj.mp (hu.symm.trans hv)
    exact ⟨hC s l u hs hu hPu, hal⟩

/-- What is preserved by the steps that satisfy `C` holds along every run that
takes only such steps. -/
theorem invariant_along {M : Machine σ ℓ} {P : σ → Prop} {C : σ → ℓ → σ → Prop}
    (hstep : ∀ s l t, P s → C s l t → M.step s l = some t → P t) :
    ∀ {s t : σ} {ls : List ℓ}, P s → M.Along C s ls → M.run s ls = some t → P t := by
  intro s t ls hs hc h
  induction ls generalizing s with
  | nil =>
    rw [run_nil, Option.some_inj] at h
    exact h ▸ hs
  | cons l ls ih =>
    rw [run_cons] at h
    obtain ⟨u, hu, h⟩ := h
    rw [along_cons] at hc
    obtain ⟨hC, hc⟩ := hc u hu
    exact ih (hstep s l u hs hC hu) hc h

/-- The machine that takes only the labels `p` holds of. -/
def only (M : Machine σ ℓ) (p : ℓ → Bool) : Machine σ ℓ :=
  ⟨fun s l => if p l then M.step s l else none⟩

theorem only_step {M : Machine σ ℓ} {p : ℓ → Bool} {s t : σ} {l : ℓ} :
    (M.only p).step s l = some t ↔ p l = true ∧ M.step s l = some t := by
  show (if p l then M.step s l else none) = some t ↔ _
  split <;> simp_all

theorem only_run {M : Machine σ ℓ} {p : ℓ → Bool} {s : σ} {ls : List ℓ}
    (h : ∀ l ∈ ls, p l = true) : (M.only p).run s ls = M.run s ls := by
  induction ls generalizing s with
  | nil => rfl
  | cons l ls ih =>
    have hl : (M.only p).step s l = M.step s l := if_pos (h l (by simp))
    rw [run, run, hl]
    split
    · rfl
    · exact ih fun l' hl' => h l' (by simp [hl'])

/-- What it does the whole machine does. -/
theorem Reaches.of_only {M : Machine σ ℓ} {p : ℓ → Bool} {s t : σ}
    (h : (M.only p).Reaches s t) : M.Reaches s t := by
  refine invariant (P := fun u => M.Reaches s u) (fun u l v hu hst => ?_) (.refl M s) h
  rw [only_step] at hst
  exact hu.trans (.single hst.2)

end Machine
