/-
Machines whose steps are paid for.

Some steps of a machine are its own: whoever schedules them may take them in any
order, but goes on until none of them is left.  A potential that each of them
consumes bounds how often they are taken, in runs in which other steps, which may
add to it, happen in between:

* `Machine.count_le` — the steps of one kind in a run are at most what the
  potential was at first and what the labels of the run have added;
* `Machine.inevitably_quiet` — without other steps the machine comes to rest,
  whatever the schedule.
-/
import Mathlib.Algebra.BigOperators.Group.List.Basic
import Mathlib.Algebra.Order.Ring.Nat
import Hannibal.Machine

namespace Machine

variable {σ ℓ : Type*} {M : Machine σ ℓ} {p : σ → ℓ → Bool} {P Q : σ → Prop} {s t : σ}

/-- How many steps of the run satisfy `p`. -/
def count (M : Machine σ ℓ) (p : σ → ℓ → Bool) : σ → List ℓ → ℕ
  | _, [] => 0
  | s, l :: ls =>
    match M.step s l with
    | none => 0
    | some t => (if p s l then 1 else 0) + count M p t ls

theorem count_cons {l : ℓ} {ls : List ℓ} (h : M.step s l = some t) :
    M.count p s (l :: ls) = (if p s l then 1 else 0) + M.count p t ls := by
  rw [count, h]

/-- No step that satisfies `p` is enabled. -/
def Quiet (M : Machine σ ℓ) (p : σ → ℓ → Bool) (s : σ) : Prop :=
  ∀ l, p s l = true → M.step s l = none

/-- The steps `p` of a run are paid for by the potential `μ`, to which a label `l`
adds at most `g l`. -/
theorem count_le {I : σ → Prop} {μ : σ → ℕ} {g : ℓ → ℕ}
    (hinv : ∀ s l t, I s → M.step s l = some t → I t)
    (hstep : ∀ s l t, I s → M.step s l = some t → (if p s l then 1 else 0) + μ t ≤ μ s + g l) :
    ∀ {s t : σ} {ls : List ℓ}, I s → M.run s ls = some t →
      M.count p s ls + μ t ≤ μ s + (ls.map g).sum := by
  intro s t ls hs h
  induction ls generalizing s with
  | nil =>
    rw [run_nil, Option.some_inj] at h
    subst h
    exact (Nat.zero_add _).le
  | cons l ls ih =>
    rw [run_cons] at h
    obtain ⟨u, hu, h⟩ := h
    have hone := hstep s l u hs hu
    have hrest := ih (hinv s l u hs hu) h
    rw [count_cons hu, List.map_cons, List.sum_cons]
    omega

/-! ### What every schedule leads to -/

/-- Wherever the steps `p` lead from here, they come to a state in which `P` holds:
it holds here, or one of them is enabled and all of them lead there. -/
inductive Inevitably (M : Machine σ ℓ) (p : σ → ℓ → Bool) (P : σ → Prop) : σ → Prop where
  | now (s : σ) (h : P s) : Inevitably M p P s
  | later (s : σ) (l : ℓ) (hl : p s l = true) (he : M.step s l ≠ none)
      (h : ∀ l t, p s l = true → M.step s l = some t → Inevitably M p P t) : Inevitably M p P s

namespace Inevitably

theorem mono (h : M.Inevitably p P s) (hPQ : ∀ s, P s → Q s) : M.Inevitably p Q s := by
  induction h with
  | now s h => exact .now s (hPQ s h)
  | later s l hl he _ ih => exact .later s l hl he ih

/-- What the steps `p` preserve may be assumed of the state that is reached. -/
theorem strengthen {I : σ → Prop} (h : M.Inevitably p P s) (hs : I s)
    (hstep : ∀ s l t, I s → p s l = true → M.step s l = some t → I t) :
    M.Inevitably p (fun s => I s ∧ P s) s := by
  induction h with
  | now s h => exact .now s ⟨hs, h⟩
  | later s l hl he _ ih =>
    exact .later s l hl he fun k t hk ht => ih k t hk ht (hstep s k t hs hk ht)

end Inevitably

/-- Steps `p` that descend come to rest. -/
theorem inevitably_quiet {β : Type*} {r : β → β → Prop} (hr : WellFounded r) {I : σ → Prop}
    (μ : σ → β) (hinv : ∀ s l t, I s → p s l = true → M.step s l = some t → I t)
    (hstep : ∀ s l t, I s → p s l = true → M.step s l = some t → r (μ t) (μ s)) (hs : I s) :
    M.Inevitably p (fun s => I s ∧ M.Quiet p s) s := by
  obtain ⟨b, hb⟩ : ∃ b, μ s = b := ⟨_, rfl⟩
  induction b using hr.induction generalizing s with
  | _ b ih =>
    by_cases hq : M.Quiet p s
    · exact .now s ⟨hs, hq⟩
    · -- some step is left, and wherever it leads the potential is lower
      simp only [Quiet, not_forall] at hq
      obtain ⟨l, hl, he⟩ := hq
      refine .later s l hl he fun k t hk ht => ?_
      exact ih (μ t) (hb ▸ hstep s k t hs hk ht) (hinv s k t hs hk ht) rfl

end Machine
