/-
Stopping oneself.

`Context::stop` upgrades the context's weak reference to the forcing transmitter.  An
upgrade puts a `Stop` into the mailbox; where only the other transmitter is left, or none
at all, it is refused, and the loop goes on with what is queued:

* `Shut.step` — at a `Stop`, or where the mailbox is drained and has no sender, no payload
  is taken any more;
* **`context_stop_honest`** — a `stop` that returned `Ok` is behind everything the loop
  takes, and one that was refused is so in every run in which none is refused while the
  mailbox can still yield a payload.
-/
import Hannibal.LoopEnd

open scoped List

namespace Hannibal

variable {A : Actor}

namespace Sys

/-! ### What a call of `stop` comes to -/

/-- A `stop` is on its way, or was accepted, or was refused; that of the context only if
the reference could not be upgraded. -/
def StopsAnswered (s : Sys A) : Prop :=
  ∀ (i : ℕ) (o : Op A), s.ops[i]? = some o → o.method = .stop → o.state = .begun ∨
    (o.state = .returned (.ok none) ∧ .accepted ⟨i, .stop⟩ ∈ s.trace) ∨
    (o.state = .returned (.error .asyncSendError) ∧ o.access ≠ .context) ∨
    o.state = .returned (.error .alreadyStopped)

theorem StopsAnswered.step {E : Environment A} {s t : Sys A} {es : List (Event A)}
    (hs : s.StopsAnswered) (hc : s.Counted) (hr : s.ReceiverHeld) (h : E.Step s t es) :
    t.StopsAnswered := by
  have ht := h.trace
  -- an operation that was there before
  have hold : ∀ (i : ℕ) (o : Op A), s.ops[i]? = some o → o.method = .stop → o.state = .begun ∨
      (o.state = .returned (.ok none) ∧ .accepted ⟨i, .stop⟩ ∈ t.trace) ∨
      (o.state = .returned (.error .asyncSendError) ∧ o.access ≠ .context) ∨
      o.state = .returned (.error .alreadyStopped) := by
    intro i o hi hm
    rcases hs i o hi hm with h | ⟨h, ha⟩ | h | h
    · exact .inl h
    · exact .inr (.inl ⟨h, ht ▸ List.mem_append_left _ ha⟩)
    · exact .inr (.inr (.inl h))
    · exact .inr (.inr (.inr h))
  rcases h.outside with ⟨-, hef⟩ | ⟨-, hl⟩
  · cases hef with
    | idle es he ho hq =>
      intro i o hi
      exact hold i o (ho ▸ hi)
    | add o hst ho hq =>
      intro i o' hi hm
      rw [ho, List.getElem?_append] at hi
      split at hi
      · exact hold i o' hi hm
      · rw [List.getElem?_singleton] at hi
        split at hi
        · cases hi
          exact hst.imp id fun h => .inr (.inr h)
        · cases hi
    | accept j o hj hst hrec ho hq =>
      intro i o' hi hm
      rw [ho] at hi
      rcases Table.getElem?_set_cases hi with ⟨rfl, rfl⟩ | ⟨-, hi⟩
      · have hm : o.method = .stop := hm
        refine .inr (.inl ⟨by simp [hm, Method.afterPush], ?_⟩)
        rw [ht]
        exact List.mem_append_right _ (by simp [envelope, hm, Method.payload])
      · exact hold i o' hi hm
    | move j o st hj hmv ho hq =>
      intro i o' hi hm
      rw [ho] at hi
      rcases Table.getElem?_set_cases hi with ⟨rfl, rfl⟩ | ⟨-, hi⟩
      · have hstop : o.method = .stop := hm
        cases hmv with
        | refused hst hrec =>
          refine .inr (.inr (.inl ⟨rfl, fun ha => ?_⟩))
          -- the context lives inside the loop's future
          have hk := hc.kept o (List.mem_of_getElem? hj) (by simp [hst, OpState.live])
          rw [show o.access = .context from ha] at hk
          rw [hr] at hrec
          cases hp : s.phase <;> simp [hp, Phase.hasContext, Phase.isEnded] at hk hrec
        | flushed hst | answered r hst | canceled hst =>
          rcases hs j o hj hstop with h | ⟨h, -⟩ | ⟨h, -⟩ | h <;> simp [hst] at h
        | dropped hf => simp [Op.pendingFuture, Method.isFuture, hstop, Method.awaited,
            Method.responds] at hf
      · exact hold i o' hi hm
  · intro i o hi
    exact hold i o (hl.untouched.ops ▸ hi)

/-! ### Nothing more to take -/

/-- The loop is over, or finds the end of its mailbox or a `Stop` when it next looks. -/
def Shut (s : Sys A) : Prop :=
  s.phase.looping = false ∨ (s.chan.queue = [] ∧ s.chan.senders = 0) ∨
    ∃ e q, s.chan.queue = e :: q ∧ e.payload = .stop

theorem Shut.step {E : Environment A} {s t : Sys A} {es : List (Event A)} (hs : s.Shut)
    (hc : s.Counted) (h : E.Step s t es) :
    t.Shut ∧ ∀ e : Envelope A, e.payload ≠ .stop → .taken e ∉ es := by
  rcases h.outside with ⟨ho, hef⟩ | ⟨-, hl⟩
  · refine ⟨?_, fun e _ hm => ho.source _ hm rfl⟩
    -- nothing is pushed where no sender is left
    have hq : s.chan.senders = 0 ∧ t.chan.queue = s.chan.queue ∨
        s.chan.senders ≠ 0 ∧ ∃ q, t.chan.queue = s.chan.queue ++ q := by
      by_cases h0 : s.chan.senders = 0
      · refine .inl ⟨h0, ?_⟩
        cases hef with
        | accept i o hi hst =>
          have := hc.senders_pos_of_begun (List.mem_of_getElem? hi) hst
          omega
        | idle es he ho hq | add o hst ho hq | move i o st hi hm ho hq => exact hq
      · refine .inr ⟨h0, ?_⟩
        rcases hef.accepted with ⟨hq, -⟩ | ⟨-, e, hq, -⟩
        · exact ⟨[], by rw [hq, List.append_nil]⟩
        · exact ⟨[e], hq⟩
    rcases hs with hs | ⟨hnil, h0⟩ | ⟨e, q, he, hp⟩
    · exact .inl (ho.phase ▸ hs)
    · rcases hq with ⟨-, hq⟩ | ⟨hne, -⟩
      · exact .inr (.inl ⟨hq.trans hnil, hc.senders_stable h h0⟩)
      · exact absurd h0 hne
    · rcases hq with ⟨-, hq⟩ | ⟨-, r, hq⟩
      · exact .inr (.inr ⟨e, q, hq.trans he, hp⟩)
      · exact .inr (.inr ⟨e, q ++ r, by rw [hq, he, List.cons_append], hp⟩)
  · rcases hs with hs | hs
    · -- behind the loop nothing is taken
      have hidle := hl.idle hs
      refine ⟨.inl ?_, fun e _ hm => by simpa [Event.working] using hidle _ hm⟩
      cases hl.progress with
      | goes hls | ends hls => simp [hs] at hls
      | crashes hlt | leaves _ hlt => exact hlt
    · cases hl.takes with
      | none hp hq hr he =>
        refine ⟨?_, fun e _ hm => ?_⟩
        · rw [Shut, hq, hl.untouched.senders]
          exact .inr hs
        · have := mem_taken.mpr hm
          rw [he] at this
          cases this
      | head e hp hp' hq hr he =>
        obtain ⟨e', q, hq', hstop⟩ := hs.resolve_left fun h => by simp [h.1] at hq
        rw [hq', List.cons.injEq] at hq
        obtain rfl := hq.1
        have hmem : .taken e' ∈ es := mem_taken.mp (by rw [he]; exact List.mem_singleton_self _)
        refine ⟨.inl ?_, fun e hne hm => ?_⟩
        · -- taking a `Stop` ends the loop
          have hend := Event.endsLoop_taken (E := E).mpr hstop
          cases hl.progress with
          | goes _ _ hno => simp [hno _ hmem] at hend
          | ends _ hlt | crashes hlt | leaves _ hlt => exact hlt
        · have hm := mem_taken.mpr hm
          rw [he, List.mem_singleton] at hm
          exact hne (hm ▸ hstop)
      | all hp hq hr he =>
        refine ⟨.inl ?_, fun e _ hm => ?_⟩
        · cases hpt : t.phase <;> simp [hpt, Phase.isEnded, Phase.looping] at hp ⊢
        · have := mem_taken.mpr hm
          rw [he] at this
          cases this

end Sys

namespace Environment

variable {E : Environment A} {a : A.State} {c : A.Ctx} {s t : Sys A}

/-- Only a `stop` of the context is ever refused for want of a transmitter. -/
theorem step_refused {l : Label A} (h : E.step s l = some t) {i : ℕ} {o : Op A}
    (hi : t.ops[i]? = some o) (hm : o.method = .stop)
    (hst : o.state = .returned (.error .alreadyStopped)) :
    s.ops[i]? = some o ∨ (l = .op (.beginContext .stop) ∧ s.arcs.force = 0 ∧
      i = s.ops.length ∧ t = s.refuseOp .stop) := by
  have hadd : ∀ o' : Op A, t.ops = s.ops ++ [o'] → s.ops[i]? = some o ∨
      i = s.ops.length ∧ o' = o := by
    intro o' ht
    rw [ht, List.getElem?_append] at hi
    split at hi
    · exact .inl hi
    · rw [List.getElem?_singleton] at hi
      split at hi
      · exact .inr ⟨by omega, Option.some_inj.mp hi⟩
      · cases hi
  have hset : ∀ (j : ℕ) (o' : Op A) (st : OpState A), st ≠ .returned (.error .alreadyStopped) →
      t.ops = s.ops.set j { o' with state := st } → s.ops[i]? = some o := by
    intro j o' st hne ht
    rw [ht] at hi
    rcases Table.getElem?_set_cases hi with ⟨-, rfl⟩ | ⟨-, hi⟩
    · exact absurd hst hne
    · exact hi
  have hbegun : ∀ (m : Method A) (x : Access), t = s.beginOp m x → s.ops[i]? = some o := by
    rintro m x rfl
    rcases hadd ⟨m, x, .begun⟩ rfl with h | ⟨-, rfl⟩
    · exact h
    · cases hst
  by_cases hop : ∀ k, l ≠ .op k
  · rw [step_ops h hop] at hi
    exact .inl hi
  · push Not at hop
    obtain ⟨k, rfl⟩ := hop
    cases Sys.opStep_labels (show s.opStep k = some t from h) with
    | begin m j | upgraded m j | context m => exact .inl (hbegun m _ rfl)
    | refused m j hd hh hoff hweak =>
      rcases hadd ⟨m, .detached, _⟩ rfl with h | ⟨-, rfl⟩
      · exact .inl h
      · -- a weak handle offers no `stop`
        have hm : m = .stop := hm
        subst hm
        cases hk : hd.kind <;> simp [hk, HandleKind.offers, HandleKind.strong] at hoff hweak
    | contextRefused m hf =>
      rcases hadd ⟨m, .detached, _⟩ rfl with h | ⟨hlen, rfl⟩
      · exact .inl h
      · have hm : m = .stop := hm
        subst hm
        exact .inr ⟨rfl, by simpa [Sys.contextUpgrades] using hf, hlen, rfl⟩
    | push j o' ho' =>
      obtain ⟨st, hops, hst'⟩ := s.pushOp_ops j o'
      refine .inl (hset j o' st ?_ hops)
      rcases hst' with rfl | rfl
      · cases o'.method <;> simp [Method.afterPush]
      · simp
    | move k j o' st hl ho' hm =>
      refine .inl (hset j o' st ?_ rfl)
      cases hm with
      | flushed => cases o'.method <;> simp [Method.afterFlush, Method.responds]
      | _ => simp

theorem Reachable.stopsAnswered (h : E.Reachable a c s) : s.StopsAnswered := by
  refine reachable_induction (P := Sys.StopsAnswered) (fun i o hi => ?_)
    (fun _ _ _ hr _ hs hst => hs.step hr.counted hr.receiverHeld hst) h
  simp [init] at hi

end Environment

/-! ### Honesty -/

/-- What a `stop` that returned promises. -/
structure StopHonest (s : Sys A) : Prop where
  /-- The context's own returns `Ok` or `Err(AlreadyStopped)`. -/
  answers : ∀ (i : ℕ) (o : Op A) r, s.ops[i]? = some o → o.method = .stop → o.access = .context →
    o.state = .returned r → r = .ok none ∨ r = .error .alreadyStopped
  /-- `Ok`: a `Stop` was appended, and nothing accepted after it is taken. -/
  ok : ∀ (i : ℕ) (o : Op A), s.ops[i]? = some o → o.method = .stop →
    o.state = .returned (.ok none) →
    .accepted ⟨i, .stop⟩ ∈ s.trace ∧
      ∀ e, [.accepted ⟨i, .stop⟩, .accepted e] <+ s.trace → .taken e ∉ s.trace

/-- `Err(AlreadyStopped)`: no further payload is taken. -/
def RefusedHonest (s : Sys A) : Prop :=
  ∀ (i : ℕ) (o : Op A), s.ops[i]? = some o → o.method = .stop →
    o.state = .returned (.error .alreadyStopped) → ∀ e : Envelope A, e.payload ≠ .stop →
      ¬ [.returned i (.error .alreadyStopped), .taken e] <+ s.trace

/-- Where a `stop` was refused the mailbox yields nothing more. -/
def ShutRefused (s : Sys A) : Prop :=
  ∀ (i : ℕ) (o : Op A), s.ops[i]? = some o → o.method = .stop →
    o.state = .returned (.error .alreadyStopped) → s.Shut

/-- The context is asked to stop while a forcing transmitter is left, or where the mailbox
yields nothing more. -/
def Heeded (s : Sys A) (l : Label A) (_ : Sys A) : Prop :=
  l = .op (.beginContext .stop) → 0 < s.arcs.force ∨ s.Shut

namespace Environment.Reachable

variable {E : Environment A} {a : A.State} {c : A.Ctx} {s t : Sys A}

theorem stopHonest (h : E.Reachable a c s) : StopHonest s where
  answers := by
    intro i o r hi hm ha hr
    rcases h.stopsAnswered i o hi hm with hst | ⟨hst, -⟩ | ⟨-, hne⟩ | hst
    · simp [hr] at hst
    · rw [hr] at hst
      cases hst
      exact .inl rfl
    · exact absurd ha hne
    · rw [hr] at hst
      cases hst
      exact .inr rfl
  ok := by
    intro i o hi hm hr
    have hacc : .accepted ⟨i, .stop⟩ ∈ s.trace := by
      rcases h.stopsAnswered i o hi hm with hst | ⟨-, hacc⟩ | ⟨hst, -⟩ | hst
      · simp [hr] at hst
      · exact hacc
      · simp [hr] at hst
      · simp [hr] at hst
    refine ⟨hacc, fun e hsub hmem => ?_⟩
    -- the loop takes in the order of acceptance, and nothing behind a `Stop`
    have hpair : [⟨i, .stop⟩, e] <+ accepted s.trace := hsub.filterMap Event.accepted?
    have htaken := pair_of_prefix_of_nodup h.logged.ordered (h.enqueued.nodup.of_map _) hpair
      (mem_taken.mpr hmem)
    obtain ⟨x, y, hx, hy, hxy⟩ := pair_of_filterMap htaken
    have hx' : x = .taken ⟨i, .stop⟩ := by
      cases x <;> simp [Event.taken?] at hx
      rw [hx]
    have hy' : y = .taken e := by
      cases y <;> simp [Event.taken?] at hy
      rw [hy]
    subst hx' hy'
    exact h.ends.last _ _ rfl rfl hxy

/-- A step that is heeded. -/
theorem refused_step (h : E.Reachable a c s) {l : Label A} (hst : E.step s l = some t)
    (hc : Heeded s l t) (hs : ShutRefused s) (hh : RefusedHonest s) :
    ShutRefused t ∧ RefusedHonest t := by
  obtain ⟨es, hes⟩ := step_cases hst
  have htr := hes.trace
  constructor
  · intro i o hi hm hr
    rcases step_refused hst hi hm hr with hold | ⟨hl, hf, -, -⟩
    · exact ((hs i o hold hm hr).step h.counted hes).1
    · exact (((hc hl).resolve_left (by omega)).step h.counted hes).1
  · intro i o hi hm hr e hp hsub
    rw [htr] at hsub
    rcases step_refused hst hi hm hr with hold | ⟨hl, hf, rfl, rfl⟩
    · have hno := ((hs i o hold hm hr).step h.counted hes).2 e hp
      rcases pair_sublist_append.mp hsub with h | h | ⟨-, h⟩
      · exact hh i o hold hm hr e hp h
      · exact hno (h.subset (by simp))
      · exact hno h
    · have hno := (((hc hl).resolve_left (by omega)).step h.counted hes).2 e hp
      rcases pair_sublist_append.mp hsub with h' | h' | ⟨-, h'⟩
      · -- the number is a new one
        obtain ⟨o', ho', -⟩ := h.enqueued.returned _ _ (h'.subset List.mem_cons_self)
        simp at ho'
      · exact hno (h'.subset (by simp))
      · exact hno h'

end Environment.Reachable

/-- **`Context::stop` is honest where it succeeds.**  In every run a `stop` that returned
`Ok` ends the loop in front of everything accepted later, and in every run in which the
context is heeded a `stop` that was refused is followed by no further payload. -/
theorem context_stop_honest {E : Environment A} {a : A.State} {c : A.Ctx} {s : Sys A}
    {ls : List (Label A)} (h : E.system.run (E.init a c) ls = some s) :
    StopHonest s ∧ (E.system.Along Heeded (E.init a c) ls → RefusedHonest s) := by
  have hr : E.Reachable a c s := ⟨ls, h⟩
  refine ⟨hr.stopHonest, fun hal => ?_⟩
  have hinv := Machine.invariant_along
    (P := fun s : Sys A => E.Reachable a c s ∧ ShutRefused s ∧ RefusedHonest s)
    (fun u l v hu hC hst => ⟨hu.1.trans (.single hst), hu.1.refused_step hst hC hu.2.1 hu.2.2⟩)
    ⟨.refl _ _, fun i o hi => ?_, fun i o hi => ?_⟩ hal h
  · exact hinv.2.2
  · simp [Environment.init] at hi
  · simp [Environment.init] at hi

namespace Tally

/-- Two numbers are sent and the only handle is dropped; the handler of the first asks the
context to stop, and the loop goes on to the second. -/
def deserted : List (Label tally) :=
  [.op (.begin (.forceSend (7 : ℕ)) 0), .op (.push 0), .op (.begin (.forceSend (8 : ℕ)) 0),
    .op (.push 1), .handle (.drop 0), .loop (.hook true), .loop .recv, .op (.beginContext .stop),
    .loop (.pollTask true ⟨false, false⟩), .loop .recv]

/-- The context is asked to stop while the actor starts. -/
def stopsItself : List (Label tally) :=
  [.op (.beginContext .stop), .op (.push 0), .loop (.hook true), .loop .recv]

end Tally

/-- A refused `stop` is ignored. -/
theorem not_context_stop_honest : ¬ ∀ s, Tally.plain.Reachable (0 : ℕ) (0 : ℕ) s →
    StopHonest s ∧ RefusedHonest s := by
  intro h
  obtain ⟨s, hs, o, ho, hm, hst, htr⟩ : ∃ s, Tally.plain.system.run (Tally.spawn Tally.plain)
      Tally.deserted = some s ∧ ∃ o, s.ops[2]? = some o ∧ o.method = .stop ∧
      o.state = .returned (.error .alreadyStopped) ∧
      s.trace.drop 10 = [.returned 2 (.error .alreadyStopped),
        .polled true ⟨false, false⟩ (.handling (7 : ℕ) false), .completed 0 none,
        .taken ⟨1, .task (.send (8 : ℕ))⟩, .begun 1 0] := ⟨_, rfl, _, rfl, rfl, rfl, rfl⟩
  refine (h s (Tally.reachable _ hs)).2 2 o ho hm hst ⟨1, .task (.send (8 : ℕ))⟩ (by simp) ?_
  refine List.Sublist.trans ?_ (List.drop_sublist 10 _)
  rw [htr]
  exact .cons_cons _ (.cons _ (.cons _ (.cons_cons _ (List.nil_sublist _))))

/-- An actor that stops itself while it starts. -/
theorem context_stop_honest_of_start : ∃ s, Tally.plain.system.run (Tally.spawn Tally.plain)
    Tally.stopsItself = some s ∧ StopHonest s ∧ RefusedHonest s := by
  obtain ⟨s, hs⟩ : ∃ s, Tally.plain.system.run (Tally.spawn Tally.plain) Tally.stopsItself =
      some s := ⟨_, rfl⟩
  obtain ⟨hok, href⟩ := context_stop_honest hs
  refine ⟨s, hs, hok, href ?_⟩
  -- the one handle holds a forcing transmitter
  refine Machine.along_cons.mpr fun _ h₁ => ⟨fun _ => .inl (by decide), ?_⟩
  cases h₁
  refine Machine.along_cons.mpr fun _ h₂ => ⟨fun hl => (by cases hl), ?_⟩
  cases h₂
  refine Machine.along_cons.mpr fun _ h₃ => ⟨fun hl => (by cases hl), ?_⟩
  cases h₃
  exact Machine.along_cons.mpr fun _ _ => ⟨fun hl => (by cases hl), trivial⟩

end Hannibal
