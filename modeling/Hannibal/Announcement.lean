/-
What is accepted after the end was announced.

`StopNotifier::notify` and the drop of the mailbox's receiver are two steps.
Between them an awaited `Addr` resolves and `stopped` tells the truth, and the
mailbox still accepts (`not_refused_after_end`): what is pushed there is dropped
unhandled a moment later.

* `refused_after_end_iff` — whatever begins after the end was known is refused
  exactly in the runs that push none of it between the two steps.
-/
import Hannibal.Actors

open scoped List

namespace Hannibal

variable {A : Actor}

/-- The stop notifier is used up and the receiver is still there. -/
def Phase.isReleasing : Phase A → Bool
  | .releasing _ => true
  | _ => false

namespace Sys

/-- Somebody can know that the actor has ended: an awaited `Addr` has resolved
`Ok`, or `stopped` returns true on a clone that was not awaited itself. -/
def EndKnown (s : Sys A) : Prop :=
  (∃ h, .resolved h (.ok ()) ∈ s.trace) ∨ (s.running.peek false).isSome = true

/-- The operations from `n` on entered no mailbox, and those that returned did so
with an error. -/
def RefusedFrom (n : ℕ) (s : Sys A) : Prop :=
  ∀ i o, n ≤ i → s.ops[i]? = some o → (∀ e ∈ accepted s.trace, e.id ≠ i) ∧
    (o.state = .begun ∨ o.state = .dropped ∨ ∃ err, o.state = .returned (.error err))

/-- Between the two steps none of the operations from `n` on is pushed. -/
def Closing (n : ℕ) (s : Sys A) (l : Label A) (_ : Sys A) : Prop :=
  s.phase.isReleasing = true → ∀ i, n ≤ i → l ≠ .op (.push i)

end Sys

/-! ### Pushing -/

/-- Only a push adds to the mailbox. -/
theorem Sys.opStep_accepted {s t : Sys A} {l : OpLabel A} (h : s.opStep l = some t)
    (hl : ∀ i, l ≠ .push i) : accepted t.trace = accepted s.trace := by
  cases opStep_labels h with
  | begin | upgraded | refused | context | contextRefused =>
    exact (accepted_append _ _).trans (List.append_nil _)
  | push i => exact absurd rfl (hl i)
  | move l i o st =>
    show accepted (s.trace ++ _) = _
    rw [accepted_append, accepted_returnEvents, List.append_nil]

namespace Environment

variable {E : Environment A} {s t : Sys A}

/-- What the mailbox accepts was pushed while the receiver was there. -/
theorem step_accepted {l : Label A} (h : E.step s l = some t) {e : Envelope A}
    (he : e ∈ accepted t.trace) :
    e ∈ accepted s.trace ∨ l = .op (.push e.id) ∧ s.chan.receiver = true := by
  have hsame : accepted t.trace = accepted s.trace → e ∈ accepted s.trace := fun ht => ht ▸ he
  cases l with
  | handle l => exact .inl (hsame (by rw [(Sys.handleStep_outside h).1.trace, List.append_nil]))
  | op l =>
    by_cases hl : ∃ i, l = .push i
    · obtain ⟨i, rfl⟩ := hl
      cases Sys.opStep_labels (show s.opStep (.push i) = some t from h) with
      | move l k o st hl => simp at hl
      | push i o ho hst =>
        unfold Sys.pushOp at he
        split at he
        · next d hd =>
          rw [Sys.record_trace, accepted_append, List.mem_append] at he
          refine he.imp_right fun he => ?_
          -- what is accepted is the envelope of the operation
          obtain rfl | he := List.mem_cons.mp he
          · exact ⟨rfl, (Mpsc.push_eq_some hd).1⟩
          · rw [← accepted, Sys.accepted_returnEvents] at he
            cases he
        · rw [Sys.record_trace, accepted_append, List.mem_append] at he
          exact .inl (he.resolve_right (by simp [accepted, Event.accepted?]))
    · exact .inl (hsame (Sys.opStep_accepted h fun i hi => hl ⟨i, hi⟩))
  | loop l =>
    obtain ⟨-, es, h⟩ := Sys.loopStep_cases h
    have hes : accepted es = [] := accepted_eq_nil fun e hmem => by
      have := h.source _ hmem
      simp [Event.source] at this
    exact .inl (hsame (by rw [h.trace, accepted_append, hes, List.append_nil]))
  | watch l =>
    obtain ⟨es, h⟩ := Sys.watchStep_cases h
    refine .inl (hsame ?_)
    cases h with
    | join | drop => rfl
    | _ => exact (accepted_append _ _).trans (List.append_nil _)

/-- As long as the receiver is there a push is accepted. -/
theorem push_accepted {i : ℕ} (h : E.step s (.op (.push i)) = some t)
    (hr : s.chan.receiver = true) : ∃ e ∈ accepted t.trace, e.id = i := by
  cases Sys.opStep_labels (show s.opStep (.push i) = some t from h) with
  | move l k o st hl => simp at hl
  | push i o ho hst =>
    refine ⟨Sys.envelope i o, ?_, rfl⟩
    unfold Sys.pushOp
    split
    · rw [Sys.record_trace, accepted_append]
      exact List.mem_append_right _ List.mem_cons_self
    · next hc =>
      rw [Mpsc.push_eq_none.mp hc] at hr
      cases hr

end Environment

/-! ### Knowing the end -/

namespace Environment.Reachable

variable {E : Environment A} {a : A.State} {c : A.Ctx} {s t u : Sys A}

/-- Nobody knows before the stop notifier is used up. -/
theorem hasEnded_of_endKnown (h : E.Reachable a c s) (hk : s.EndKnown) : s.hasEnded = true := by
  refine h.hasEnded_of_peek (b := false) ?_
  rcases hk with ⟨i, hi⟩ | hp
  · exact (h.peek_isSome false).mpr ⟨rfl, i, _, hi⟩
  · exact hp

/-- After the end the receiver is there only between the two steps. -/
theorem isReleasing_of_receiver (h : E.Reachable a c s) (he : s.hasEnded = true)
    (hr : s.chan.receiver = true) : s.phase.isReleasing = true := by
  rw [h.hasEnded_iff] at he
  rw [h.receiverHeld, Bool.not_eq_true'] at hr
  cases hp : s.phase <;> rw [hp] at he hr
  case releasing => rfl
  case ended => cases hr
  all_goals exact absurd rfl he

theorem receiver_of_isReleasing (h : E.Reachable a c s) (hp : s.phase.isReleasing = true) :
    s.chan.receiver = true := by
  rw [h.receiverHeld]
  cases hs : s.phase <;> rw [hs] at hp <;> first | rfl | cases hp

end Environment.Reachable

namespace Sys

variable {E : Environment A} {a : A.State} {c : A.Ctx} {s t u : Sys A} {n : ℕ}

/-- A step after the end, none of the later operations being pushed before the
receiver is dropped. -/
theorem RefusedFrom.step (h : s.RefusedFrom n) (hr : E.Reachable a c s) (he : s.hasEnded = true)
    {l : Label A} (hst : E.step s l = some t) (hc : s.Closing n l t) : t.RefusedFrom n := by
  obtain ⟨es, hes⟩ := Environment.step_cases hst
  intro i o hi ho
  -- a push that is accepted now is one that `hc` speaks of
  have hacc : (∀ e ∈ accepted s.trace, e.id ≠ i) → ∀ e ∈ accepted t.trace, e.id ≠ i := by
    rintro hno e hmem rfl
    rcases Environment.step_accepted hst hmem with hold | ⟨rfl, hrec⟩
    · exact hno e hold rfl
    · exact hc (hr.isReleasing_of_receiver he hrec) e.id hi rfl
  rcases hes.outside with ⟨hout, heff⟩ | ⟨-, hl⟩
  · cases heff with
    | idle es hes ho' =>
      obtain ⟨hno, hstate⟩ := h i o hi (ho' ▸ ho)
      exact ⟨hacc hno, hstate⟩
    | add o' hst' ho' =>
      rw [ho', List.getElem?_append] at ho
      split at ho
      · obtain ⟨hno, hstate⟩ := h i o hi ho
        exact ⟨hacc hno, hstate⟩
      · -- an operation that begins has not been pushed
        rw [List.getElem?_singleton] at ho
        split at ho
        · cases ho
          refine ⟨hacc fun e hmem hid => ?_, hst'.imp_right fun hst' => .inr ⟨_, hst'⟩⟩
          obtain ⟨o', hlt, -⟩ := hr.enqueued.op e hmem
          have := (List.getElem?_eq_some_iff.mp hlt).1
          omega
        · cases ho
    | accept j o' hj hst' hrec ho' =>
      rw [ho'] at ho
      rcases Table.getElem?_set_cases ho with ⟨rfl, -⟩ | ⟨-, ho⟩
      · have hmem : envelope j o' ∈ accepted t.trace := by
          rw [hout.trace, accepted_append]
          exact List.mem_append_right _ List.mem_cons_self
        exact absurd rfl (hacc (h j o' hi hj).1 _ hmem)
      · obtain ⟨hno, hstate⟩ := h i o hi ho
        exact ⟨hacc hno, hstate⟩
    | move j o' st hj hm ho' =>
      rw [ho'] at ho
      rcases Table.getElem?_set_cases ho with ⟨rfl, rfl⟩ | ⟨-, ho⟩
      · obtain ⟨hno, hstate⟩ := h j o' hi hj
        refine ⟨hacc hno, ?_⟩
        have hb : o'.state = .begun := by
          have hlive := hm.live
          rcases hstate with hb | hb | ⟨err, hb⟩
          · exact hb
          all_goals
            rw [hb] at hlive
            cases hlive
        cases hm with
        | refused => exact .inr (.inr ⟨_, rfl⟩)
        | dropped => exact .inr (.inl rfl)
        | flushed hf | answered r hf | canceled hf =>
          rw [hb] at hf
          cases hf
      · obtain ⟨hno, hstate⟩ := h i o hi ho
        exact ⟨hacc hno, hstate⟩
  · rw [hl.untouched.ops] at ho
    obtain ⟨hno, hstate⟩ := h i o hi ho
    exact ⟨hacc hno, hstate⟩

end Sys

/-- **Nothing is accepted after the end was known**, exactly in the runs in which no
later operation is pushed between the stop notification and the release of the
receiver. -/
theorem refused_after_end_iff {E : Environment A} {a : A.State} {c : A.Ctx} {s t : Sys A}
    (h : E.Reachable a c s) (hk : s.EndKnown) {ls : List (Label A)}
    (hrun : E.system.run s ls = some t) :
    t.RefusedFrom s.ops.length ↔ E.system.Along (Sys.Closing s.ops.length) s ls := by
  have he : s.hasEnded = true := Environment.Reachable.hasEnded_of_endKnown h hk
  constructor
  · generalize s.ops.length = n
    intro href
    clear hk he
    induction ls generalizing s with
    | nil => trivial
    | cons l ls ih =>
      refine Machine.along_cons.mpr fun u hu => ?_
      obtain ⟨v, hv, hrest⟩ := Machine.run_cons.mp hrun
      obtain rfl : v = u := Option.some_inj.mp (hv.symm.trans hu)
      have hr : E.Reachable a c v := Environment.Reachable.next h hv
      refine ⟨fun hp i hi hl => ?_, ih hr hrest⟩
      -- a push between the two steps is accepted and stays so
      subst hl
      have hrec := Environment.Reachable.receiver_of_isReleasing h hp
      obtain ⟨e, hacc, rfl⟩ := Environment.push_accepted (E := E) hu hrec
      have ht : E.Reachable a c t := hr.trans ⟨ls, hrest⟩
      have hmem : e ∈ accepted t.trace := mem_accepted.mpr
        ((Environment.reaches_trace ⟨ls, hrest⟩).subset (mem_accepted.mp hacc))
      obtain ⟨o, ho, -⟩ := ht.enqueued.op e hmem
      exact (href e.id o hi ho).1 e hmem rfl
  · intro hc
    refine (Machine.invariant_along (P := fun u => E.Reachable a c u ∧ u.hasEnded = true ∧
      u.RefusedFrom s.ops.length) (fun u l v hP hC hst => ?_)
      ⟨h, he, fun i o hi ho => ?_⟩ hc hrun).2.2
    · obtain ⟨hu, hend, href⟩ := hP
      exact ⟨hu.next hst, hu.hasEnded_step hst hend, href.step hu hend hst hC⟩
    · have := (List.getElem?_eq_some_iff.mp ho).1
      omega

namespace Tally

/-- The tally is stopped and an address is awaited before the receiver is
dropped. -/
def leaving : List (Label tally) :=
  [.loop (.hook true), .handle (.derive 0 .addr), .op (.begin .stop 0), .op (.push 0), .loop .recv,
    .loop (.hook true), .loop .notify, .watch (.await 1)]

/-- A number is sent, and dropped with the receiver. -/
def late : List (Label tally) :=
  [.op (.begin (.send (5 : ℕ)) 0), .op (.push 1), .op (.flush 1), .loop .dropContext,
    .loop .release]

end Tally

/-- A send that began after an awaited `Addr` had resolved returns `Ok`, and nothing
is ever handled. -/
theorem not_refused_after_end : ¬ ∀ (E : Environment tally) (s t : Sys tally)
    (ls ks : List (Label tally)), E.system.run (Tally.spawn E) ls = some s → s.EndKnown →
      E.system.run s ks = some t → t.RefusedFrom s.ops.length := by
  intro h
  have href := h Tally.plain _ _ Tally.leaving Tally.late rfl (.inr rfl) rfl 1 _ (le_refl _) rfl
  rcases href.2 with hst | hst | ⟨err, hst⟩ <;> cases hst

/-- With the receiver dropped first the send is refused. -/
theorem refused_after_end_iff_of_release : ∃ s t,
    Tally.plain.system.run (Tally.spawn Tally.plain) Tally.leaving = some s ∧
      Tally.plain.system.run s [.loop .dropContext, .loop .release,
          .op (.begin (.send (5 : ℕ)) 0), .op (.push 1)] =
        some t ∧
      (t.RefusedFrom s.ops.length ↔ Tally.plain.system.Along (Sys.Closing s.ops.length) s
        [.loop .dropContext, .loop .release, .op (.begin (.send (5 : ℕ)) 0), .op (.push 1)]) :=
  ⟨_, _, rfl, rfl, refused_after_end_iff (Tally.reachable (E := Tally.plain) Tally.leaving rfl)
    (.inr rfl) rfl⟩

end Hannibal
