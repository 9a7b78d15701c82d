/-
Lists as tables and as histories.

A table is a list whose entries are found by index and replaced by `List.set`;
`sum_map_set` follows a sum over its entries.  A history is a list that grows
at its end; `[x, y] <+ t` says that in it some `y` stands after an `x`, and
`Precedes t x y` that no `x` stands after a `y`:

* `Precedes.append` — what the entries added to a history have to satisfy;
* `Precedes.between` — two entries keep the order of the marks between them.

`Pipeline` relates two projections of a history, what went in and what came
out, through what is inside (`Pipeline.step`).
-/
import Mathlib.Algebra.BigOperators.Group.List.Basic
import Mathlib.Algebra.Order.Ring.Nat
import Mathlib.Data.List.Nodup

open scoped List

variable {α : Type*}

namespace Table

/-- Replacing an entry moves a sum over a table by the difference. -/
theorem sum_map_set {f : α → ℕ} : ∀ {l : List α} {i : ℕ} {a b : α}, l[i]? = some a →
    ((l.set i b).map f).sum + f a = (l.map f).sum + f b
  | [], _, _, _, h => by simp at h
  | x :: l, 0, a, b, h => by
    rw [List.getElem?_cons_zero, Option.some_inj] at h
    subst h
    simp only [List.set_cons_zero, List.map_cons, List.sum_cons]
    omega
  | x :: l, i + 1, a, b, h => by
    have ih := sum_map_set (f := f) (b := b) (by simpa using h : l[i]? = some a)
    simp only [List.set_cons_succ, List.map_cons, List.sum_cons]
    omega

theorem le_sum_map {f : α → ℕ} {l : List α} {a : α} (h : a ∈ l) : f a ≤ (l.map f).sum := by
  induction l with
  | nil => cases h
  | cons x l ih =>
    rw [List.map_cons, List.sum_cons]
    rcases List.mem_cons.mp h with rfl | h
    · omega
    · have := ih h
      omega

theorem sum_map_eq_zero {f : α → ℕ} {l : List α} :
    (l.map f).sum = 0 ↔ ∀ a ∈ l, f a = 0 := by
  simp [List.sum_eq_zero_iff_forall_eq_nat]

theorem sum_map_pos {f : α → ℕ} {l : List α} : 0 < (l.map f).sum ↔ ∃ a ∈ l, 0 < f a := by
  simp [List.sum_pos_iff_exists_pos_nat]

theorem countP_or_le (p q : α → Bool) (l : List α) :
    l.countP (fun a => p a || q a) ≤ l.countP p + l.countP q := by
  induction l with
  | nil => simp
  | cons a l ih =>
    rw [List.countP_cons, List.countP_cons, List.countP_cons]
    cases p a <;> cases q a <;> simp <;> omega

/-- What each of the `T` finds at most once is found by some of them at most as often as
there are of them. -/
theorem countP_any_le {ι : Type*} {p : ι → α → Bool} {l : List α} {T : List ι}
    (h : ∀ i ∈ T, l.countP (p i) ≤ 1) : l.countP (fun a => T.any fun i => p i a) ≤ T.length := by
  induction T with
  | nil => simp
  | cons i T ih =>
    have hhead := h i List.mem_cons_self
    have htail := ih fun j hj => h j (List.mem_cons_of_mem _ hj)
    have hsum := countP_or_le (p i) (fun a => T.any fun j => p j a) l
    simp only [List.any_cons, List.length_cons]
    omega

/-- An entry of an updated table is the new one or an old one. -/
theorem mem_set_cases {l : List α} {i : ℕ} {a b : α} (h : a ∈ l.set i b) : a = b ∨ a ∈ l := by
  rcases List.mem_or_eq_of_mem_set h with h | h
  · exact .inr h
  · exact .inl h

theorem getElem?_set_cases {l : List α} {i j : ℕ} {a b : α} (h : (l.set i b)[j]? = some a) :
    i = j ∧ a = b ∨ i ≠ j ∧ l[j]? = some a := by
  by_cases hij : i = j
  · subst hij
    rw [List.getElem?_set_self (by simpa using (List.getElem?_eq_some_iff.mp h).1)] at h
    exact .inl ⟨rfl, (Option.some_inj.mp h).symm⟩
  · rw [List.getElem?_set_ne hij] at h
    exact .inr ⟨hij, h⟩

end Table

/-- What `f` makes of the entries of a list, read back. -/
theorem map_filterMap_sublist {β : Type*} {f : α → Option β} {g : β → α}
    (h : ∀ a b, f a = some b → g b = a) : ∀ l : List α, (l.filterMap f).map g <+ l := by
  intro l
  induction l with
  | nil => exact .slnil
  | cons a l ih =>
    cases hf : f a with
    | none =>
      rw [List.filterMap_cons_none hf]
      exact ih.cons a
    | some b =>
      rw [List.filterMap_cons_some hf, List.map_cons, h a b hf]
      exact ih.cons_cons a

/-! ### Histories -/

/-- A list has one split at the last element with a property. -/
theorem split_at_last {p : α → Prop} {t u v w : List α} {a b : α}
    (h : t ++ a :: u = v ++ b :: w) (ha : p a) (hb : p b) (hu : ∀ x ∈ u, ¬ p x)
    (hw : ∀ x ∈ w, ¬ p x) : t = v ∧ a = b ∧ u = w := by
  rcases List.append_eq_append_iff.mp h with ⟨l, hv, hl⟩ | ⟨l, ht, hl⟩
  · rcases l with _ | ⟨c, l⟩
    · cases hl
      exact ⟨(hv.trans (List.append_nil t)).symm, rfl, rfl⟩
    · cases hl
      exact absurd hb (hu b (List.mem_append_right _ List.mem_cons_self))
  · rcases l with _ | ⟨c, l⟩
    · cases hl
      exact ⟨ht.trans (List.append_nil v), rfl, rfl⟩
    · cases hl
      exact absurd ha (hw a (List.mem_append_right _ List.mem_cons_self))

theorem pair_sublist_append {t u : List α} {x y : α} :
    [x, y] <+ t ++ u ↔ [x, y] <+ t ∨ [x, y] <+ u ∨ (x ∈ t ∧ y ∈ u) := by
  constructor
  · intro h
    obtain ⟨l, r, hlr, hl, hr⟩ := List.sublist_append_iff.mp h
    rcases l with _ | ⟨a, _ | ⟨b, l⟩⟩
    · rw [List.nil_append] at hlr
      exact .inr (.inl (hlr ▸ hr))
    · simp only [List.cons_append, List.nil_append, List.cons.injEq] at hlr
      obtain ⟨rfl, rfl⟩ := hlr
      exact .inr (.inr ⟨List.singleton_sublist.mp hl, List.singleton_sublist.mp hr⟩)
    · simp only [List.cons_append, List.cons.injEq, List.nil_eq, List.append_eq_nil_iff] at hlr
      obtain ⟨rfl, rfl, rfl, rfl⟩ := hlr
      exact .inl hl
  · rintro (h | h | ⟨h, h'⟩)
    · exact h.trans (List.sublist_append_left t u)
    · exact h.trans (List.sublist_append_right t u)
    · exact List.Sublist.append (List.singleton_sublist.mpr h) (List.singleton_sublist.mpr h')

theorem mem_dropLast_of_pair {t : List α} {x y : α} (h : [x, y] <+ t) : x ∈ t.dropLast := by
  obtain ⟨r, u, rfl, hx, hy⟩ := List.cons_sublist_iff.mp h
  have hu : u ≠ [] := List.ne_nil_of_mem (List.singleton_sublist.mp hy)
  rw [List.dropLast_append_of_ne_nil hu]
  exact List.mem_append_left _ hx

/-- An entry that satisfies `p` has a last one. -/
theorem exists_last_mem {p : α → Prop} {t : List α} (h : ∃ x ∈ t, p x) :
    ∃ r x u, t = r ++ x :: u ∧ p x ∧ ∀ y ∈ u, ¬ p y := by
  induction t with
  | nil => simp at h
  | cons z t ih =>
    by_cases ht : ∃ x ∈ t, p x
    · obtain ⟨r, x, u, rfl, hx, hu⟩ := ih ht
      exact ⟨z :: r, x, u, rfl, hx, hu⟩
    · obtain ⟨x, hx, hpx⟩ := h
      have hn : ∀ y ∈ t, ¬ p y := fun y hy hpy => ht ⟨y, hy, hpy⟩
      rcases List.mem_cons.mp hx with rfl | hx
      · exact ⟨[], x, t, rfl, hpx, hn⟩
      · exact absurd hpx (hn x hx)

/-- An entry of a longer history is an old one or a new one. -/
theorem split_append {t u r v : List α} {x : α} (h : t ++ u = r ++ x :: v) :
    (∃ v', t = r ++ x :: v' ∧ v = v' ++ u) ∨ ∃ r', u = r' ++ x :: v ∧ r = t ++ r' := by
  rcases List.append_eq_append_iff.mp h with ⟨w, rfl, hw⟩ | ⟨w, rfl, hw⟩
  · exact .inr ⟨w, hw, rfl⟩
  · rcases List.cons_eq_append_iff.mp hw with ⟨rfl, hx⟩ | ⟨w', rfl, rfl⟩
    · exact .inr ⟨[], hx, by simp⟩
    · exact .inl ⟨w', rfl, rfl⟩

/-- In the history `t`, no `x` stands after a `y`. -/
def Precedes (t : List α) (x y : α) : Prop := ¬ [y, x] <+ t

namespace Precedes

variable {t u : List α} {w x y z : α}

theorem nil : Precedes [] x y := by
  intro h
  cases h

theorem singleton {e : α} : Precedes [e] x y := by
  intro h
  have := h.length_le
  simp at this

theorem append : Precedes (t ++ u) x y ↔ Precedes t x y ∧ Precedes u x y ∧ (y ∈ t → x ∉ u) := by
  simp only [Precedes, pair_sublist_append]
  tauto

/-- Two entries keep the order of the marks between them. -/
theorem between (hx : Precedes t x w) (hy : Precedes t z y) (hwz : [w, z] <+ t)
    (hxt : x ∈ t) (hyt : y ∈ t) : [x, y] <+ t := by
  obtain ⟨r, u, rfl, hw, hz⟩ := List.cons_sublist_iff.mp hwz
  rw [List.singleton_sublist] at hz
  rw [append] at hx hy
  have hxr : x ∈ r := by
    rcases List.mem_append.mp hxt with h | h
    · exact h
    · exact absurd h (hx.2.2 hw)
  have hyu : y ∈ u := by
    rcases List.mem_append.mp hyt with h | h
    · exact absurd hz (hy.2.2 h)
    · exact h
  exact pair_sublist_append.mpr (.inr (.inr ⟨hxr, hyu⟩))

end Precedes

/-! ### Projections of histories -/

variable {β : Type*}

theorem pair_of_mem {t : List α} {x y : α} (hx : x ∈ t) (hy : y ∈ t) (hxy : x ≠ y) :
    [x, y] <+ t ∨ [y, x] <+ t := by
  induction t with
  | nil => cases hx
  | cons z t ih =>
    rcases List.mem_cons.mp hx with rfl | hx'
    · have hy' := (List.mem_cons.mp hy).resolve_left (Ne.symm hxy)
      exact .inl ((List.singleton_sublist.mpr hy').cons_cons x)
    · rcases List.mem_cons.mp hy with rfl | hy'
      · exact .inr ((List.singleton_sublist.mpr hx').cons_cons y)
      · exact (ih hx' hy').imp (·.cons z) (·.cons z)

/-- In a projection without repetitions every value has one origin. -/
theorem eq_of_nodup_filterMap {t : List α} {f : α → Option β} (h : (t.filterMap f).Nodup)
    {x y : α} {b : β} (hx : x ∈ t) (hy : y ∈ t) (hfx : f x = some b) (hfy : f y = some b) :
    x = y := by
  by_contra hxy
  rw [List.nodup_iff_sublist] at h
  rcases pair_of_mem hx hy hxy with hsub | hsub
  · exact h b (by simpa [List.filterMap_cons, hfx, hfy] using hsub.filterMap f)
  · exact h b (by simpa [List.filterMap_cons, hfx, hfy] using hsub.filterMap f)

/-- The order of a projection is that of its origins. -/
theorem pair_of_filterMap {t : List α} {f : α → Option β} {b c : β}
    (h : [b, c] <+ t.filterMap f) : ∃ x y, f x = some b ∧ f y = some c ∧ [x, y] <+ t := by
  obtain ⟨l, hl, hlf⟩ := List.sublist_filterMap_iff.mp h
  obtain ⟨r, x, u, rfl, -, hx, hu⟩ := List.filterMap_eq_cons_iff.mp hlf.symm
  obtain ⟨r', y, u', rfl, -, hy, -⟩ := List.filterMap_eq_cons_iff.mp hu
  refine ⟨x, y, hx, hy, List.Sublist.trans ?_ hl⟩
  refine List.Sublist.trans ?_ (List.sublist_append_right r _)
  exact (List.singleton_sublist.mpr (by simp)).cons_cons x

theorem pair_of_prefix_of_nodup {t u : List α} (h : t <+: u) (hu : u.Nodup) {x y : α}
    (hxy : [x, y] <+ u) (hy : y ∈ t) : [x, y] <+ t := by
  obtain ⟨r, rfl⟩ := h
  have hdis := (List.nodup_append.mp hu).2.2
  rcases pair_sublist_append.mp hxy with h | h | ⟨-, h⟩
  · exact h
  · exact absurd rfl (hdis y hy y (h.subset (by simp)))
  · exact absurd rfl (hdis y hy y h)

theorem not_pair_of_nodup {t : List α} (h : t.Nodup) {x y : α} (hxy : [x, y] <+ t) :
    ¬ [y, x] <+ t := by
  intro hyx
  induction t with
  | nil => cases hxy
  | cons z t ih =>
    rw [List.nodup_cons] at h
    rcases List.sublist_cons_iff.mp hxy with hxt | ⟨_, he, hy⟩ <;>
      rcases List.sublist_cons_iff.mp hyx with hyt | ⟨_, he', hx⟩
    · exact ih h.2 hxt hyt
    · cases he'
      exact h.1 (hxt.subset (by simp))
    · cases he
      exact h.1 (hyt.subset (by simp))
    · cases he
      cases he'
      exact h.1 (hy.subset List.mem_cons_self)

theorem mem_of_pair {t : List α} {x y : α} (h : [x, y] <+ t) : x ∈ t ∧ y ∈ t :=
  ⟨h.subset (by simp), h.subset (by simp)⟩

/-- An entry before one that is before every `z` is before every `z`. -/
theorem Precedes.pair_trans {t : List α} {x y z : α} (hxy : [x, y] <+ t) (h : Precedes t y z)
    (hz : z ∈ t) : [x, z] <+ t := by
  obtain ⟨r, u, rfl, hx, hy⟩ := List.cons_sublist_iff.mp hxy
  rw [List.singleton_sublist] at hy
  rw [Precedes.append] at h
  rcases List.mem_append.mp hz with hz | hz
  · exact absurd hy (h.2.2 hz)
  · exact pair_sublist_append.mpr (.inr (.inr ⟨hx, hz⟩))

/-! ### Pipelines -/

/-- What goes `into` a pipeline comes `out` of it in the same order; what is
inside is `inside`, unless the pipeline was cut. -/
structure Pipeline (into out inside : List α) (cut : Bool) : Prop where
  order : out <+: into
  exact : cut = false → into = out ++ inside

/-- What one step has to satisfy: it takes in `i` and puts out `o`. -/
structure Pipeline.Passes (inside i o inside' : List α) (cut cut' : Bool) : Prop where
  flows : cut = false → o <+: inside ++ i ∧ (cut' = false → inside ++ i = o ++ inside')
  stays_cut : cut = true → cut' = true ∧ i = [] ∧ o = []

theorem Pipeline.step {into out inside inside' i o : List α} {cut cut' : Bool}
    (h : Pipeline into out inside cut) (hp : Pipeline.Passes inside i o inside' cut cut') :
    Pipeline (into ++ i) (out ++ o) inside' cut' := by
  cases hc : cut with
  | false =>
    obtain ⟨hio, heq⟩ := hp.flows hc
    -- everything but what is inside has come out before
    have hx : into ++ i = out ++ (inside ++ i) := by rw [h.exact hc, List.append_assoc]
    constructor
    · rw [hx]
      exact (List.prefix_append_right_inj _).mpr hio
    · intro hc'
      rw [hx, heq hc', List.append_assoc]
  | true =>
    obtain ⟨hc', rfl, rfl⟩ := hp.stays_cut hc
    rw [List.append_nil, List.append_nil]
    refine ⟨h.order, fun hn => ?_⟩
    rw [hc'] at hn
    cases hn
