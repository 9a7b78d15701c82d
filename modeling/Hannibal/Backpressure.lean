/-
Back-pressure of an awaited send.

Every send goes through a fresh clone, so only its flush can wait, and it waits
while the clone is parked.  The parked clones are those of the payloads beyond
the buffer, in order (`Fitted`): a push parks at the back where the queue is
longer than the buffer, a receive takes one from the front of both.

* `awaited_send_waits` — an awaited send completes with `Ok` only when its
  payload was taken, is among the first `n` in the mailbox, or the receiver is
  gone.
-/
import Hannibal.Actors

open scoped List

namespace Mpsc

variable {ι π : Type*} {key : π → ι} {c : Mpsc ι π}

/-- The items beyond the buffer. -/
def excess (c : Mpsc ι π) : List π :=
  match c.buffer with
  | none => []
  | some n => c.queue.drop n

/-- The parked clones are those of the items beyond the buffer. -/
def Fitted (key : π → ι) (c : Mpsc ι π) : Prop := c.parked = c.excess.map key

theorem fitted_channel (buffer : Option ℕ) : (channel buffer : Mpsc ι π).Fitted key := by
  cases buffer with
  | none => rfl
  | some n => simp [Fitted, excess, channel]

/-- A push that makes the queue longer than the buffer parks, and no other. -/
theorem Fitted.push {d : Mpsc ι π} {p : π} (h : c.Fitted key) (hd : c.push (key p) p = some d) :
    d.Fitted key := by
  unfold Mpsc.push at hd
  split at hd
  · cases hd
    unfold Fitted excess at h ⊢
    cases hb : c.buffer with
    | none => simpa [full, hb] using h
    | some n =>
      simp only [hb] at h
      simp only [full, hb, decide_eq_true_eq]
      by_cases hn : n < c.queue.length + 1
      · -- the payload is the last one beyond the buffer
        rw [if_pos hn, h, List.drop_append_of_le_length (by omega), List.map_append]
        rfl
      · rw [if_neg hn, h, List.drop_eq_nil_of_le (by omega), List.drop_eq_nil_of_le]
        rw [List.length_append, List.length_singleton]
        omega
  · cases hd

/-- A receive takes the oldest from both lists. -/
theorem Fitted.advance (h : c.Fitted key) : c.advance.Fitted key := by
  unfold Fitted excess at h ⊢
  cases hb : c.buffer with
  | none =>
    simp only [hb, List.map_nil] at h
    simp only [Mpsc.advance, hb, h, List.tail_nil, List.map_nil]
  | some n =>
    simp only [hb] at h
    simp only [Mpsc.advance, hb]
    rw [h, List.drop_tail, ← List.map_tail, List.tail_drop]

theorem Fitted.close : c.close.Fitted key := by
  unfold Fitted excess Mpsc.close
  cases c.buffer <;> simp

/-- An item whose clone is not parked is within the buffer. -/
theorem Fitted.mem_take (h : c.Fitted key) {n : ℕ} (hb : c.buffer = some n) {p : π}
    (hp : p ∈ c.queue) (hk : key p ∉ c.parked) : p ∈ c.queue.take n := by
  rw [← List.take_append_drop n c.queue, List.mem_append] at hp
  refine hp.resolve_right fun hd => hk ?_
  rw [h, excess, hb]
  exact List.mem_map.mpr ⟨p, hd, rfl⟩

end Mpsc

namespace Hannibal

variable {A : Actor}

namespace Sys

/-- The mailbox has the buffer it was spawned with, and parks what exceeds it. -/
structure Fitted (E : Environment A) (s : Sys A) : Prop where
  buffer : s.chan.buffer = E.buffer
  parked : s.chan.Fitted Envelope.id

theorem OpStep.fitted {E : Environment A} {s t : Sys A} {es : List (Event A)} (hs : s.Fitted E)
    (h : s.OpStep t es) : t.Fitted E := by
  cases h with
  | push i o d ho hst hc =>
    have hd : d.buffer = s.chan.buffer := by
      unfold Mpsc.push at hc
      split at hc <;> cases hc
      rfl
    have hpark : d.Fitted Envelope.id := hs.parked.push (p := envelope i o) hc
    exact ⟨hd.trans hs.buffer, hpark⟩
  | _ => exact ⟨hs.buffer, hs.parked⟩

theorem LoopStep.fitted {E : Environment A} {s t : Sys A} {es : List (Event A)} (hs : s.Fitted E)
    (h : s.LoopStep E t es) : t.Fitted E := by
  cases h with
  | takeTask | takeStop | takeRestart | ignoreRestart | restartPanic =>
    exact ⟨hs.buffer, hs.parked.advance⟩
  | release o => exact ⟨hs.buffer, .close⟩
  | crash o ho hs' =>
    unfold Sys.crash
    split <;> exact ⟨hs.buffer, hs.parked⟩
  | _ => exact ⟨hs.buffer, hs.parked⟩

theorem Fitted.step {E : Environment A} {s t : Sys A} {es : List (Event A)} (hs : s.Fitted E)
    (h : E.Step s t es) : t.Fitted E := by
  cases h with
  | handle l h =>
    obtain ⟨hl, ar, n, rfl⟩ := handleStep_frame h
    exact ⟨hs.buffer, hs.parked⟩
  | op es h => exact h.fitted hs
  | loop es hb h => exact h.fitted hs
  | watch es h => cases h <;> exact ⟨hs.buffer, hs.parked⟩

/-- An awaited send completes in a flush, when its clone is not parked. -/
theorem send_completes {E : Environment A} {s t : Sys A} {es : List (Event A)} (h : E.Step s t es)
    {i : ℕ} {o o' : Op A} {m : A.Message} (ho : s.ops[i]? = some o) (hm : o.method = .send m)
    (hl : o.state.live = true) (ho' : t.ops[i]? = some o') (hr : o'.state = .returned (.ok none)) :
    o.state = .flushing ∧ i ∉ s.chan.parked ∧ t.chan.parked = s.chan.parked := by
  have hsame : ∀ o'', some o'' = some o → o''.state = .returned (.ok none) → False := by
    rintro o'' he hr'
    rw [Option.some_inj] at he
    rw [← he, hr'] at hl
    cases hl
  have hkeep : t.ops[i]? = s.ops[i]? → False := fun he =>
    hsame o' (ho'.symm.trans (he.trans ho)) hr
  have hadd : ∀ o'', t.ops = s.ops ++ [o''] → False := fun o'' he => hkeep (by
    rw [he, List.getElem?_append_left (List.getElem?_eq_some_iff.mp ho).1])
  cases h with
  | handle l h =>
    obtain ⟨hl, ar, n, rfl⟩ := handleStep_frame h
    exact (hkeep rfl).elim
  | op es h =>
    cases h with
    | begin | upgraded | context | refused => exact (hadd _ rfl).elim
    | push j o'' d hj hst hc =>
      rcases Table.getElem?_set_cases (show (s.ops.set j _)[i]? = some o' from ho') with
        ⟨rfl, rfl⟩ | ⟨-, hi⟩
      · rw [hj, Option.some_inj] at ho
        rw [ho, hm] at hr
        cases hr
      · exact (hsame o' (hi.symm.trans ho) hr).elim
    | move j o'' st hj hmv =>
      rcases Table.getElem?_set_cases (show (s.ops.set j _)[i]? = some o' from ho') with
        ⟨rfl, rfl⟩ | ⟨-, hi⟩
      · rw [hj, Option.some_inj] at ho
        subst ho
        cases hmv with
        | flushed hf hp => exact ⟨hf, hp, rfl⟩
        | _ => cases hr
      · exact (hsame o' (hi.symm.trans ho) hr).elim
  | loop es hb h => exact (hkeep (by rw [h.untouched.ops])).elim
  | watch es h => cases h <;> exact (hkeep rfl).elim

end Sys

namespace Environment.Reachable

variable {E : Environment A} {a : A.State} {c : A.Ctx} {s : Sys A}

theorem fitted (h : E.Reachable a c s) : s.Fitted E := by
  refine reachable_induction (P := Sys.Fitted E) ⟨rfl, ?_⟩ (fun _ _ _ _ _ hs hst => hs.step hst) h
  exact Mpsc.fitted_channel E.buffer

end Environment.Reachable

/-- **Back-pressure.**  An awaited send that completes with `Ok` was taken, is among
the first `n` payloads that wait, or the receiver is gone. -/
theorem awaited_send_waits {E : Environment A} {n : ℕ} (hn : E.buffer = some n) {a : A.State}
    {c : A.Ctx} {s t : Sys A} (h : E.Reachable a c s) {l : Label A} (hst : E.step s l = some t)
    {i : ℕ} {o o' : Op A} {m : A.Message} (ho : s.ops[i]? = some o) (hm : o.method = .send m)
    (hl : o.state.live = true) (ho' : t.ops[i]? = some o') (hr : o'.state = .returned (.ok none)) :
    (∃ e ∈ taken t.trace, e.id = i) ∨ (∃ e ∈ t.chan.queue.take n, e.id = i) ∨
      t.chan.receiver = false := by
  have ht : E.Reachable a c t := Environment.Reachable.next h hst
  obtain ⟨es, hes⟩ := Environment.step_cases hst
  obtain ⟨hf, hp, hpark⟩ := Sys.send_completes hes ho hm hl ho' hr
  obtain ⟨e, he, rfl⟩ := h.pushed.waiting ho (.inl hf)
  cases hrec : t.chan.receiver with
  | false => exact .inr (.inr rfl)
  | true =>
    have hacc : e ∈ accepted t.trace := by
      rw [hes.trace, accepted_append]
      exact List.mem_append_left _ he
    rw [ht.logged.queued hrec, List.mem_append] at hacc
    rcases hacc with hacc | hacc
    · exact .inl ⟨e, hacc, rfl⟩
    · refine .inr (.inl ⟨e, ht.fitted.parked.mem_take ?_ hacc ?_, rfl⟩)
      · rw [ht.fitted.buffer, hn]
      · rwa [hpark]

/-- A mailbox without room for anything. -/
def Tally.narrow : Environment tally := ⟨some 0, ⟨none, false⟩, .restartOnly, none⟩

/-- Without a buffer a send completes once its payload was taken. -/
theorem awaited_send_waits_for_loop : ∃ s t, Tally.narrow.system.run (Tally.spawn Tally.narrow)
      [.loop (.hook true), .op (.begin (.send (5 : ℕ)) 0), .op (.push 0), .loop .recv] = some s ∧
    Tally.narrow.step s (.op (.flush 0)) = some t ∧
    ((∃ e ∈ taken t.trace, e.id = 0) ∨ (∃ e ∈ t.chan.queue.take 0, e.id = 0) ∨
      t.chan.receiver = false) :=
  ⟨_, _, rfl, rfl, awaited_send_waits rfl (Tally.reachable (E := Tally.narrow)
    [.loop (.hook true), .op (.begin (.send (5 : ℕ)) 0), .op (.push 0), .loop .recv] rfl)
    (l := .op (.flush 0)) rfl (m := (5 : ℕ)) rfl rfl rfl rfl rfl⟩

end Hannibal
