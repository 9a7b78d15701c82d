/-
Consuming an actor.

`OwningAddr::consume` stops the actor through its mailbox, joins its task and returns
the actor.  Here the call runs beside all other steps of the system; it owns its
`OwningAddr`, so the join future it makes is the only one:

* `Consuming.Fit` — how far the call has come;
* **`consume_returns_iff`** — behind a loop that returned its actor the call comes back,
  and with that actor exactly if the mailbox still had its receiver when the call sent
  its `Stop`.
-/
import Hannibal.Joining

namespace Hannibal

variable {A : Actor}

/-- Where a call of `consume` stands. -/
inductive Consume (A : Actor) where
  | called
  | stopped
  | joining (j : ℕ)
  | returned (r : Except ActorError A.State)

/-- An actor and a call of `consume` on its `OwningAddr`. -/
structure Consuming (A : Actor) where
  sys : Sys A
  stage : Consume A

inductive ConsumeLabel (A : Actor) where
  | consume
  | env (l : Label A)

/-- A step of some join future. -/
def Label.joins : Label A → Bool
  | .watch (.join _) => true
  | .watch (.pollJoin _) => true
  | .watch (.dropJoin _) => true
  | _ => false

/-- What the others do meanwhile: the handle and its join futures are the call's. -/
def Consume.frees (h : ℕ) (l : Label A) : Consume A → Bool
  | .returned _ => !l.joins
  | _ => !l.joins && match l with
    | .handle (.drop i) => i != h
    | _ => true

/-- The call made with the handle `h`: `self.addr.stop()?`, then
`self.join().await.ok_or(ActorError::AlreadyStopped)`. -/
def Consuming.consume (E : Environment A) (h : ℕ) (x : Consuming A) : Option (Consuming A) :=
  match x.stage with
  | .called =>
    (E.system.run x.sys [.op (.begin .stop h), .op (.push x.sys.ops.length)]).bind fun t =>
      match t.ops[x.sys.ops.length]?.map Op.state with
      | some (.returned (.ok _)) => some ⟨t, .stopped⟩
      | some (.returned (.error e)) => some ⟨t, .returned (.error e)⟩
      | _ => none
  | .stopped => (E.step x.sys (.watch (.join h))).map fun t => ⟨t, .joining x.sys.joins.length⟩
  | .joining j => (E.step x.sys (.watch (.pollJoin j))).map fun (t : Sys A) =>
    match t.joins[j]? with
    | some (.done (some a)) => ⟨t, .returned (.ok a)⟩
    | some (.done none) => ⟨t, .returned (.error .alreadyStopped)⟩
    | _ => ⟨t, .joining j⟩
  | .returned _ => none

namespace Environment

def consuming (E : Environment A) (h : ℕ) : Machine (Consuming A) (ConsumeLabel A) where
  step x
    | .consume => x.consume E h
    | .env l => if x.stage.frees h l then (E.step x.sys l).map fun t => ⟨t, x.stage⟩ else none

variable {E : Environment A} {a : A.State} {c : A.Ctx} {s t : Sys A} {h : ℕ}

/-! ### The parts of the call -/

/-- `self.addr.stop()` -/
theorem stop_run {hd : Handle} (hh : s.handle? h = some hd) (hk : hd.kind = .owningAddr) :
    ∃ t o, E.system.run s [.op (.begin .stop h), .op (.push s.ops.length)] = some t ∧
      t.ops[s.ops.length]? = some o ∧
      o.state = (if s.chan.receiver then .returned (.ok none)
        else .returned (.error .asyncSendError)) ∧
      t.phase = s.phase ∧ t.joins = s.joins ∧ t.joinSlot = s.joinSlot ∧ t.handles = s.handles := by
  have hbegin : E.step s (.op (.begin .stop h)) = some (s.beginOp .stop (.borrowed h)) := by
    simp [step, Sys.opStep, hh, hk, HandleKind.offers, HandleKind.strong, HandleKind.access]
  have hop : (s.beginOp .stop (.borrowed h)).ops[s.ops.length]? =
      some ⟨.stop, .borrowed h, .begun⟩ := List.getElem?_concat_length
  have hpush : E.step (s.beginOp .stop (.borrowed h)) (.op (.push s.ops.length)) =
      some ((s.beginOp .stop (.borrowed h)).pushOp s.ops.length ⟨.stop, .borrowed h, .begun⟩) := by
    simp only [step, Sys.opStep, hop]
  refine ⟨(s.beginOp .stop (.borrowed h)).pushOp s.ops.length ⟨.stop, .borrowed h, .begun⟩, ?_⟩
  have hrun : E.system.run s [.op (.begin .stop h), .op (.push s.ops.length)] =
      some ((s.beginOp .stop (.borrowed h)).pushOp s.ops.length ⟨.stop, .borrowed h, .begun⟩) := by
    rw [Machine.run_cons]
    exact ⟨_, hbegin, Machine.run_cons.mpr ⟨_, hpush, rfl⟩⟩
  have hlen : s.ops.length < (s.beginOp .stop (.borrowed h)).ops.length := by
    simp [Sys.beginOp, Sys.addOp]
  have hrec : (s.beginOp .stop (.borrowed h)).chan.receiver = s.chan.receiver := rfl
  unfold Sys.pushOp at hrun ⊢
  split at hrun
  · next d hd =>
    have hr := (Mpsc.push_eq_some hd).1.symm.trans hrec
    refine ⟨_, hrun, List.getElem?_set_self hlen, ?_, rfl, rfl, rfl, rfl⟩
    rw [← hr]
    rfl
  · next hd =>
    have hr := (Mpsc.push_eq_none.mp hd).symm.trans hrec
    refine ⟨_, hrun, List.getElem?_set_self hlen, ?_, rfl, rfl, rfl, rfl⟩
    rw [← hr]
    rfl

/-- What others do leaves the join futures alone. -/
theorem step_joins {l : Label A} (hst : E.step s l = some t) (hl : l.joins = false) :
    t.joins = s.joins ∧ t.joinSlot = s.joinSlot := by
  cases l with
  | handle l =>
    obtain ⟨hl, ar, n, rfl⟩ := Sys.handleStep_frame hst
    exact ⟨rfl, rfl⟩
  | op l =>
    obtain ⟨es, hop⟩ := Sys.opStep_cases hst
    cases hop <;> exact ⟨rfl, rfl⟩
  | loop l =>
    obtain ⟨-, es, hloop⟩ := Sys.loopStep_cases hst
    exact ⟨hloop.untouched.joins, hloop.untouched.joinSlot⟩
  | watch l =>
    cases l with
    | await i =>
      simp only [step, Sys.watchStep] at hst
      split at hst
      · split at hst
        · split at hst
          · cases hst
            exact ⟨rfl, rfl⟩
          · cases hst
        · cases hst
      · cases hst
    | join i => cases hl
    | pollJoin j => cases hl
    | dropJoin j => cases hl

/-- An `OwningAddr` is no future to be awaited. -/
theorem step_owningAddr {l : Label A} (hst : E.step s l = some t) {hd : Handle}
    (hh : s.handle? h = some hd) (hk : hd.kind = .owningAddr) (hl : l ≠ .handle (.drop h)) :
    t.handle? h = some hd := by
  refine step_handle hst hh hl ?_
  rintro rfl
  simp [step, Sys.watchStep, hh, hk] at hst

end Environment

/-! ### How far the call has come -/

/-- What `join().await.ok_or(..)` makes of the outcome of the loop. -/
def Exit.consumed : Exit A → Except ActorError A.State
  | .ok a => .ok a
  | _ => .error .alreadyStopped

theorem Phase.output_ended (o : Exit A) :
    ∃ out, (Phase.ended o).output = some out ∧
      o.consumed = match out with
        | some a => .ok a
        | none => .error .alreadyStopped := by
  cases o <;> exact ⟨_, rfl, rfl⟩

theorem Phase.ended_of_output {p : Phase A} {out : Option A.State} (h : p.output = some out) :
    ∃ o, p = .ended o := by
  cases p <;> first | exact ⟨_, rfl⟩ | cases h

/-- The handle of the task is in the slot, and nobody has made a join future. -/
def Sys.Untaken (s : Sys A) : Prop := s.joins = [] ∧ s.joinSlot = true

/-- The `OwningAddr` is there. -/
def Sys.Owned (s : Sys A) (h : ℕ) : Prop := ∃ hd, s.handle? h = some hd ∧ hd.kind = .owningAddr

/-- The call's own join future is the only one and has the handle, or gets it; where the
call has returned, the loop has ended, and it returned what the loop did unless it was
refused. -/
def Consuming.Fit (h : ℕ) (x : Consuming A) : Prop :=
  match x.stage with
  | .called => x.sys.Untaken ∧ x.sys.Owned h
  | .stopped => x.sys.Untaken ∧ x.sys.Owned h
  | .joining j => j = 0 ∧
      (x.sys.joins = [.created] ∧ x.sys.joinSlot = true ∨ x.sys.joins = [.holding])
  | .returned r => ∃ o, x.sys.phase = .ended o ∧ (r = .error .asyncSendError ∨ r = o.consumed)

/-- What is known of a call along its run. -/
def Consuming.Good (E : Environment A) (a : A.State) (c : A.Ctx) (h : ℕ) (x : Consuming A) :
    Prop := E.Reachable a c x.sys ∧ x.Fit h

/-- The call stops the actor while the mailbox has its receiver. -/
def Consuming.Heard (x : Consuming A) (l : ConsumeLabel A) (_ : Consuming A) : Prop :=
  l = .consume → x.stage = .called → x.sys.chan.receiver = true

namespace Environment

variable {E : Environment A} {a : A.State} {c : A.Ctx} {s t : Sys A} {h : ℕ} {x y : Consuming A}

theorem consuming_env {l : Label A} (hst : (E.consuming h).step x (.env l) = some y) :
    x.stage.frees h l = true ∧ E.step x.sys l = some y.sys ∧ y.stage = x.stage := by
  simp only [consuming] at hst
  split at hst
  · next hl =>
    obtain ⟨t, ht, rfl⟩ := Option.map_eq_some_iff.mp hst
    exact ⟨hl, ht, rfl⟩
  · cases hst

theorem fit_env {l : Label A} (hf : x.Fit h) (hst : (E.consuming h).step x (.env l) = some y) :
    y.Fit h := by
  obtain ⟨hl, hst, hstage⟩ := consuming_env hst
  have howned : x.stage.frees h l = true → (∀ r, x.stage ≠ .returned r) →
      x.sys.Owned h → y.sys.Owned h := by
    rintro hl hr ⟨hd, hh, hk⟩
    refine ⟨hd, step_owningAddr hst hh hk ?_, hk⟩
    rintro rfl
    cases hx : x.stage <;> simp [hx, Consume.frees] at hl hr
  have hjoins : l.joins = false := by
    cases hx : x.stage <;> simp_all [Consume.frees]
  obtain ⟨hj, hsl⟩ := step_joins hst hjoins
  unfold Consuming.Fit at hf ⊢
  rw [hstage]
  cases hx : x.stage with
  | called | stopped =>
    rw [hx] at hf
    obtain ⟨⟨hnil, hslot⟩, ho⟩ := hf
    exact ⟨⟨hj.trans hnil, hsl.trans hslot⟩, howned hl (by simp [hx]) ho⟩
  | joining j =>
    rw [hx] at hf
    rw [hj, hsl]
    exact hf
  | returned r =>
    rw [hx] at hf
    obtain ⟨o, ho, hr⟩ := hf
    obtain ⟨es, hes⟩ := step_cases hst
    exact ⟨o, hes.ended ho, hr⟩

/-- `self.addr.stop()?` goes on, or fails if the receiver is gone. -/
theorem consume_called (hr : E.Reachable a c x.sys) (hx : x.stage = .called) (hf : x.Fit h) :
    ∃ y, x.consume E h = some y ∧ y.Fit h ∧ y.sys.phase = x.sys.phase ∧
      y.stage = if x.sys.chan.receiver then .stopped else .returned (.error .asyncSendError) := by
  unfold Consuming.Fit at hf
  rw [hx] at hf
  obtain ⟨hun, hd, hh, hk⟩ := hf
  obtain ⟨t, o, hrun, ho, hst, hph, hj, hsl, hhs⟩ := stop_run (E := E) hh hk
  cases hrec : x.sys.chan.receiver with
  | true =>
    rw [hrec, if_pos rfl] at hst
    refine ⟨⟨t, .stopped⟩, ?_, ⟨⟨hj.trans hun.1, hsl.trans hun.2⟩, hd, ?_, hk⟩, hph, rfl⟩
    · simp [Consuming.consume, hx, hrun, ho, hst]
    · rwa [Sys.handle?, hhs]
  | false =>
    rw [hrec, if_neg (by simp)] at hst
    have hend : x.sys.phase.isEnded = true := by
      have := hr.receiverHeld
      rw [Sys.ReceiverHeld, hrec] at this
      simpa using this.symm
    obtain ⟨e, he⟩ : ∃ e, x.sys.phase = .ended e := by
      cases hp : x.sys.phase <;> simp [hp, Phase.isEnded] at hend
      exact ⟨_, rfl⟩
    refine ⟨⟨t, .returned (.error .asyncSendError)⟩, ?_, ⟨e, hph.trans he, .inl rfl⟩, hph, rfl⟩
    simp [Consuming.consume, hx, hrun, ho, hst]

/-- `self.join()` -/
theorem consume_stopped (hx : x.stage = .stopped) (hf : x.Fit h) :
    ∃ y, x.consume E h = some y ∧ y.Fit h ∧ y.sys.phase = x.sys.phase ∧
      y.stage = .joining 0 := by
  unfold Consuming.Fit at hf
  rw [hx] at hf
  obtain ⟨⟨hnil, hslot⟩, hd, hh, hk⟩ := hf
  have hst : E.step x.sys (.watch (.join h)) =
      some { x.sys with joins := x.sys.joins ++ [.created] } := by
    simp [step, Sys.watchStep, hh, hk]
  refine ⟨⟨{ x.sys with joins := x.sys.joins ++ [.created] }, .joining x.sys.joins.length⟩, ?_,
    ⟨?_, .inl ⟨?_, hslot⟩⟩, rfl, ?_⟩
  · simp [Consuming.consume, hx, hst]
  · rw [hnil]
    rfl
  · show x.sys.joins ++ _ = _
    rw [hnil]
    rfl
  · rw [hnil]
    rfl

/-- The await of the join future waits, or comes back with the outcome of the loop. -/
theorem consume_joining {j : ℕ} (hx : x.stage = .joining j) (hf : x.Fit h) :
    (∀ o, x.sys.phase = .ended o → ∃ y, x.consume E h = some y ∧ y.sys.phase = .ended o ∧
      y.stage = .returned o.consumed) ∧
    ((∀ o, x.sys.phase ≠ .ended o) → ∀ y, x.consume E h = some y → y.stage = .joining j ∧
      y.Fit h) := by
  unfold Consuming.Fit at hf
  rw [hx] at hf
  obtain ⟨rfl, hjoins⟩ := hf
  constructor
  · intro o ho
    obtain ⟨out, hout, hres⟩ := Phase.output_ended o
    obtain ⟨t, ht, hdone, hph⟩ : ∃ t, E.step x.sys (.watch (.pollJoin 0)) = some t ∧
        t.joins = [.done out] ∧ t.phase = x.sys.phase := by
      rcases hjoins with ⟨hj, hsl⟩ | hj
      · exact ⟨_, by simp [step, Sys.watchStep, Sys.pollJoin, hj, hsl, ho, hout]; rfl, rfl,
          ho.symm⟩
      · exact ⟨_, by simp [step, Sys.watchStep, Sys.pollJoin, hj, ho, hout]; rfl, rfl, ho.symm⟩
    refine ⟨⟨t, .returned o.consumed⟩, ?_, hph.trans ho, rfl⟩
    rw [hres]
    cases out <;> simp [Consuming.consume, hx, ht, hdone]
  · intro hno y hy
    have hout : x.sys.phase.output = none := by
      rw [Option.eq_none_iff_forall_not_mem]
      intro out hmem
      obtain ⟨o, ho⟩ := Phase.ended_of_output hmem
      exact hno o ho
    rcases hjoins with ⟨hj, hsl⟩ | hj
    · simp only [Consuming.consume, hx, step, Sys.watchStep, Sys.pollJoin, hj, hsl, hout] at hy
      cases hy
      exact ⟨rfl, rfl, .inr rfl⟩
    · simp [Consuming.consume, hx, step, Sys.watchStep, Sys.pollJoin, hj, hout] at hy

/-- The call takes steps of the system. -/
theorem consume_reaches (hy : x.consume E h = some y) : E.system.Reaches x.sys y.sys := by
  unfold Consuming.consume at hy
  split at hy
  · obtain ⟨t, ht, hy⟩ := Option.bind_eq_some_iff.mp hy
    split at hy
    · cases hy
      exact ⟨_, ht⟩
    · cases hy
      exact ⟨_, ht⟩
    · cases hy
  · obtain ⟨t, ht, rfl⟩ := Option.map_eq_some_iff.mp hy
    exact Machine.Reaches.single (l := .watch (.join h)) ht
  · next j hx =>
    obtain ⟨t, ht, rfl⟩ := Option.map_eq_some_iff.mp hy
    have hsys : E.system.Reaches x.sys t := .single (l := .watch (.pollJoin j)) ht
    split <;> exact hsys
  · cases hy

/-- A step of the call, which is refused only where it finds the receiver gone. -/
theorem fit_consume (hr : E.Reachable a c x.sys) (hf : x.Fit h) (hy : x.consume E h = some y) :
    y.Fit h ∧ (y.stage = .returned (.error .asyncSendError) ↔
      x.stage = .called ∧ x.sys.chan.receiver = false) := by
  cases hx : x.stage with
  | called =>
    obtain ⟨y', hy', hfit, -, hstage⟩ := consume_called hr hx hf
    obtain rfl := Option.some_inj.mp (hy.symm.trans hy')
    refine ⟨hfit, ?_⟩
    rw [hstage]
    cases x.sys.chan.receiver <;> simp
  | stopped =>
    obtain ⟨y', hy', hfit, -, hstage⟩ := consume_stopped (E := E) hx hf
    obtain rfl := Option.some_inj.mp (hy.symm.trans hy')
    exact ⟨hfit, by simp [hstage]⟩
  | joining j =>
    obtain ⟨hend, hwait⟩ := consume_joining (E := E) hx hf
    by_cases ho : ∃ o, x.sys.phase = .ended o
    · obtain ⟨o, ho⟩ := ho
      obtain ⟨y', hy', hph, hstage⟩ := hend o ho
      obtain rfl := Option.some_inj.mp (hy.symm.trans hy')
      refine ⟨?_, ?_⟩
      · unfold Consuming.Fit
        rw [hstage]
        exact ⟨o, hph, .inr rfl⟩
      · rw [hstage]
        cases o <;> simp [Exit.consumed]
    · obtain ⟨hstage, hfit⟩ := hwait (fun o h => ho ⟨o, h⟩) y hy
      exact ⟨hfit, by simp [hstage]⟩
  | returned r => simp [Consuming.consume, hx] at hy

theorem consuming_step {l : ConsumeLabel A} (hg : x.Good E a c h)
    (hst : (E.consuming h).step x l = some y) : y.Good E a c h := by
  cases l with
  | consume => exact ⟨hg.1.trans (consume_reaches hst), (fit_consume hg.1 hg.2 hst).1⟩
  | env l => exact ⟨hg.1.next (consuming_env hst).2.1, fit_env hg.2 hst⟩

/-- Behind the end of the loop nothing keeps the call from returning. -/
theorem consume_returns (hg : x.Good E a c h) {o : Exit A} (ho : x.sys.phase = .ended o) :
    ∃ n y r, (E.consuming h).run x (List.replicate n .consume) = some y ∧
      y.stage = .returned r := by
  have hone : ∀ {x y : Consuming A} {n : ℕ} {z}, x.consume E h = some y →
      (E.consuming h).run y (List.replicate n .consume) = some z →
      (E.consuming h).run x (List.replicate (n + 1) .consume) = some z := by
    intro x y n z hy hz
    rw [List.replicate_succ, Machine.run_cons]
    exact ⟨y, hy, hz⟩
  have hjoin : ∀ {x : Consuming A} {j : ℕ}, x.stage = .joining j → x.Fit h →
      x.sys.phase = .ended o → ∃ y, x.consume E h = some y ∧ ∃ r, y.stage = .returned r := by
    intro x j hx hf ho
    obtain ⟨y, hy, -, hstage⟩ := (consume_joining hx hf).1 o ho
    exact ⟨y, hy, _, hstage⟩
  have hstop : ∀ {x : Consuming A}, x.stage = .stopped → x.Fit h → x.sys.phase = .ended o →
      ∃ y r, (E.consuming h).run x (List.replicate 2 .consume) = some y ∧
        y.stage = .returned r := by
    intro x hx hf ho
    obtain ⟨y, hy, hfit, hph, hstage⟩ := consume_stopped (E := E) hx hf
    obtain ⟨z, hz, r, hr⟩ := hjoin hstage hfit (hph.trans ho)
    exact ⟨z, r, hone hy (hone (n := 0) hz rfl), hr⟩
  cases hx : x.stage with
  | called =>
    obtain ⟨y, hy, hfit, hph, hstage⟩ := consume_called hg.1 hx hg.2
    by_cases hrec : x.sys.chan.receiver = true
    · rw [if_pos hrec] at hstage
      obtain ⟨z, r, hz, hr⟩ := hstop hstage hfit (hph.trans ho)
      exact ⟨3, z, r, hone hy hz, hr⟩
    · rw [if_neg hrec] at hstage
      exact ⟨1, y, _, hone (n := 0) hy rfl, hstage⟩
  | stopped =>
    obtain ⟨y, r, hy, hr⟩ := hstop hx hg.2 ho
    exact ⟨2, y, r, hy, hr⟩
  | joining j =>
    obtain ⟨y, hy, r, hr⟩ := hjoin hx hg.2 ho
    exact ⟨1, y, r, hone (n := 0) hy rfl, hr⟩
  | returned r => exact ⟨0, x, r, rfl, hx⟩

/-- **`consume` retrieves the actor exactly if its `Stop` still has a receiver.**  Called
on an `OwningAddr` whose task nobody joined, it returns behind the end of the loop; where
the loop returned its actor the call does so too, unless the loop had ended before it was
told to stop. -/
theorem consume_returns_iff (hs : E.Reachable a c s) (hj : s.joins = []) {hd : Handle}
    (hh : s.handle? h = some hd) (hk : hd.kind = .owningAddr) {ls : List (ConsumeLabel A)}
    (hrun : (E.consuming h).run ⟨s, .called⟩ ls = some x) {b : A.State}
    (hb : x.sys.phase = .ended (.ok b)) :
    (∃ n y r, (E.consuming h).run x (List.replicate n .consume) = some y ∧
      y.stage = .returned r) ∧
    ∀ r, x.stage = .returned r →
      (r = .ok b ↔ (E.consuming h).Along Consuming.Heard ⟨s, .called⟩ ls) := by
  -- without a join future nobody has taken the task's handle
  have hslot : s.joinSlot = true := by
    by_contra hno
    have hne := hs.joins.empty (by simpa using hno)
    obtain ⟨j, hmem⟩ := List.exists_mem_of_ne_nil _ hne
    have hlt := hs.joins.fresh j hmem
    rw [hj] at hlt
    exact absurd hlt (Nat.not_lt_zero j)
  have hg : Consuming.Good E a c h ⟨s, .called⟩ := ⟨hs, ⟨hj, hslot⟩, hd, hh, hk⟩
  have hgx : x.Good E a c h := Machine.invariant (M := E.consuming h)
    (P := fun x => x.Good E a c h) (fun _ _ _ hg hst => consuming_step hg hst) hg ⟨ls, hrun⟩
  refine ⟨consume_returns hgx hb, fun r hr => ⟨?_, fun hal => ?_⟩⟩
  · rintro rfl
    refine (Machine.along_of_end (I := fun x => x.Good E a c h)
      (P := fun x => x.stage ≠ .returned (.error .asyncSendError))
      (fun _ _ _ hg hst => consuming_step hg hst) (fun y l z hg hst hz hy => hz ?_)
      (fun y l z hg hst hz hl hy => ?_) hg hrun (by simp [hr])).1
    · -- a call that was refused stays so
      cases l with
      | consume => simp [consuming, Consuming.consume, hy] at hst
      | env l => exact (consuming_env hst).2.2.trans hy
    · subst hl
      by_contra hrec
      exact hz ((fit_consume hg.1 hg.2 hst).2.mpr ⟨hy, by simpa using hrec⟩)
  · have hno : x.stage ≠ .returned (.error .asyncSendError) := by
      refine (Machine.invariant_along (P := fun x => x.Good E a c h ∧
        x.stage ≠ .returned (.error .asyncSendError)) (fun y l z hy hC hst => ?_)
        ⟨hg, by simp⟩ hal hrun).2
      refine ⟨consuming_step hy.1 hst, fun hz => ?_⟩
      cases l with
      | consume =>
        obtain ⟨hcalled, hrec⟩ := (fit_consume hy.1.1 hy.1.2 hst).2.mp hz
        rw [hC rfl hcalled] at hrec
        cases hrec
      | env l => exact hy.2 ((consuming_env hst).2.2.symm.trans hz)
    have hfit := hgx.2
    unfold Consuming.Fit at hfit
    rw [hr] at hfit hno
    obtain ⟨o, ho, hres⟩ := hfit
    rw [hb] at ho
    obtain rfl : o = .ok b := by simpa using ho.symm
    rcases hres with rfl | rfl
    · exact absurd rfl hno
    · rfl

end Environment

namespace Tally

/-- The actor is stopped through another `Addr` and its loop ends. -/
def stoppedByAddr : List (Label tally) :=
  [.handle (.derive 0 .addr), .loop (.hook true), .op (.begin .stop 1), .op (.push 0), .loop .recv,
    .loop (.hook true), .loop .notify, .loop .dropContext, .loop .release]

/-- The call stops the running actor and waits for it. -/
def consumed : List (ConsumeLabel tally) :=
  [.consume, .consume, .consume, .env (.loop .recv), .env (.loop (.hook true)),
    .env (.loop .notify), .env (.loop .dropContext), .env (.loop .release), .consume]

end Tally

/-- The actor is there to be fetched, and the call fails since it cannot be stopped again. -/
theorem not_consume_returns : ¬ ∀ (s : Sys tally) (x : Consuming tally)
    (ls : List (ConsumeLabel tally)) (hd : Handle) (b : ℕ) (r : Except ActorError ℕ),
    Tally.plain.Reachable (0 : ℕ) (0 : ℕ) s → s.joins = [] → s.handle? 0 = some hd →
    hd.kind = .owningAddr → (Tally.plain.consuming 0).run ⟨s, .called⟩ ls = some x →
    x.sys.phase = .ended (.ok b) → x.stage = .returned r → r = .ok b := by
  intro h
  obtain ⟨s, hs, hj, hd, hh, hk, x, hx, hp, hr⟩ : ∃ s, Tally.plain.system.run
      (Tally.spawn Tally.plain) Tally.stoppedByAddr = some s ∧ s.joins = [] ∧ ∃ hd,
      s.handle? 0 = some hd ∧ hd.kind = .owningAddr ∧ ∃ x,
      (Tally.plain.consuming 0).run ⟨s, .called⟩ [.consume] = some x ∧
      x.sys.phase = .ended (.ok (0 : ℕ)) ∧ x.stage = .returned (.error .asyncSendError) :=
    ⟨_, rfl, rfl, _, rfl, rfl, _, rfl, rfl, rfl⟩
  cases h s x _ hd _ _ (Tally.reachable _ hs) hj hh hk hx hp hr

/-- A running actor is consumed. -/
theorem consume_returns_of_running : ∃ s x, Tally.plain.system.run (Tally.spawn Tally.plain)
      [.loop (.hook true)] = some s ∧
    (Tally.plain.consuming 0).run ⟨s, .called⟩ Tally.consumed = some x ∧
    x.stage = .returned (.ok (0 : ℕ)) ∧
    (Tally.plain.consuming 0).Along Consuming.Heard ⟨s, .called⟩ Tally.consumed := by
  obtain ⟨s, hs, hj, hd, hh, hk, x, hx, hp, hr⟩ : ∃ s, Tally.plain.system.run
      (Tally.spawn Tally.plain) [.loop (.hook true)] = some s ∧ s.joins = [] ∧ ∃ hd,
      s.handle? 0 = some hd ∧ hd.kind = .owningAddr ∧ ∃ x,
      (Tally.plain.consuming 0).run ⟨s, .called⟩ Tally.consumed = some x ∧
      x.sys.phase = .ended (.ok (0 : ℕ)) ∧ x.stage = .returned (.ok (0 : ℕ)) :=
    ⟨_, rfl, rfl, _, rfl, rfl, _, rfl, rfl, rfl⟩
  exact ⟨s, x, hs, hx, hr,
    ((Environment.consume_returns_iff (Tally.reachable _ hs) hj hh hk hx hp).2 _ hr).mp rfl⟩

end Hannibal
