/-
Telling an actor to stop.

A `Stop` in the mailbox is taken some time, and what waits for the end of the loop comes
back behind it, whoever schedules the loop, the operations and the calls:

* **`stop_settles`** — the loop of an actor that was told to stop ends, having handled
  what was accepted in front of the first `Stop` and nothing else;
* **`consume_settles`** — a call of `OwningAddr::consume` comes back with that actor;
* **`stop_and_join_settles`** — a call of `Addr::stop_and_join` comes back with the
  outcome of that loop.
-/
import Hannibal.Announcement
import Hannibal.Children
import Hannibal.Consuming
import Hannibal.Propagation

namespace Hannibal

variable {A : Actor}

/-! ### A `Stop` in the mailbox -/

/-- The mailbox has accepted a `Stop`. -/
def Sys.Told (s : Sys A) : Prop := ∃ e ∈ accepted s.trace, e.payload = .stop

/-- What was accepted up to the first `Stop` is what the loop handled. -/
def Sys.HandledToStop (s : Sys A) : Prop :=
  ∃ l d r, accepted s.trace = l ++ d :: r ∧ (∀ e ∈ l, e.payload ≠ .stop) ∧ d.payload = .stop ∧
    concluded s.trace = l.map Envelope.id

namespace Environment

variable {E : Environment A} {a : A.State} {c : A.Ctx} {s t : Sys A} {h : ℕ}

theorem told_step {l : Label A} (hs : s.Told) (hst : E.step s l = some t) : t.Told := by
  obtain ⟨e, he, hp⟩ := hs
  obtain ⟨es, hes⟩ := step_cases hst
  refine ⟨e, ?_, hp⟩
  rw [hes.trace, accepted_append]
  exact List.mem_append_left _ he

/-- A loop that waits on an empty mailbox has not taken a `Stop`. -/
theorem Reachable.told_ended (hr : E.Reachable a c s) (hs : s.Told) (hrest : s.AtRest) :
    ∃ o, s.phase = .ended o := by
  refine hrest.loop.resolve_right ?_
  rintro ⟨hp, hnil, -⟩
  obtain ⟨e, he, hstop⟩ := hs
  -- everything was taken, so the `Stop` was a turn that the loop did not survive
  rw [hr.queued (by rw [hp]; rfl), hnil, List.append_nil] at he
  have hturn : some e ∈ turns s.trace := by
    obtain ⟨ev, hev, htk⟩ := List.mem_filterMap.mp he
    refine List.mem_filterMap.mpr ⟨ev, hev, ?_⟩
    cases ev <;> simp_all [Event.turn?, Event.taken?]
  have hgo := hr.turned.going (by rw [hp]; rfl) (by rw [hp]; rfl) _ hturn
  simp [endsTurns, hstop] at hgo

/-- What the loop has handled when it ends well behind a `Stop`. -/
theorem Reachable.handledToStop (hr : E.Reachable a c s) (hs : s.Told) {b : A.State}
    (hp : s.phase = .ended (.ok b)) (hn : .streamEnd ∉ s.trace) : s.HandledToStop := by
  obtain ⟨l, hl, hdone, ⟨d, hd, ht⟩ | ⟨ht, hm | hm⟩⟩ := hr.ended_taken hp
  · obtain ⟨r, hacc⟩ := hr.logged.ordered
    refine ⟨l, d, r, ?_, hl, hd, hdone⟩
    rw [← hacc, ht, List.append_assoc, List.singleton_append]
  · -- everything was taken, and so the `Stop`
    obtain ⟨e, he, hstop⟩ := hs
    rw [(hr.drained hm).2, ht] at he
    exact absurd hstop (hl e he)
  · exact absurd hm hn

end Environment

/-- **An actor that was told to stop comes to its end.**  Whatever the schedule, its loop
ends; if it ends well and not because its stream did, it has handled what was accepted in
front of the first `Stop`, in this order, and nothing else. -/
theorem stop_settles {E : Environment A} [Nonempty A.World] {rank : A.Fut → ℕ}
    (hf : A.Finishing rank) {a : A.State} {c : A.Ctx} {s : Sys A} (h : E.Reachable a c s)
    (hs : s.Told) :
    E.system.Inevitably Sys.worksSilent
      (fun t => t.AtRest ∧ (∃ o, t.phase = .ended o) ∧
        ∀ b, t.phase = .ended (.ok b) → .streamEnd ∉ t.trace → t.HandledToStop) s := by
  refine ((h.settles hf).strengthen (I := Sys.Told) hs ?_).mono ?_
  · exact fun t l u ht _ hst => Environment.told_step ht hst
  · rintro t ⟨htold, ht, hrest⟩
    exact ⟨hrest, ht.told_ended htold hrest, fun b hp hn => ht.handledToStop htold hp hn⟩

/-- A message is queued in front of the `Stop`, and one behind it. -/
theorem stop_settles_of_stop : ∃ s, Patient.plain.system.run (Patient.spawn Patient.plain)
      [.op (.begin (.forceSend (1 : ℕ)) 0), .op (.push 0), .op (.begin .stop 0), .op (.push 1),
        .op (.begin (.forceSend (2 : ℕ)) 0), .op (.push 2)] = some s ∧
      s.chan.queue.length = 3 ∧ Patient.plain.system.Inevitably Sys.worksSilent
        (fun t => t.AtRest ∧ (∃ o, t.phase = .ended o) ∧
          ∀ b, t.phase = .ended (.ok b) → .streamEnd ∉ t.trace → t.HandledToStop) s :=
  ⟨_, rfl, rfl, stop_settles Patient.finishing (a := (0 : ℕ)) (c := ())
    ⟨[.op (.begin (.forceSend (1 : ℕ)) 0), .op (.push 0), .op (.begin .stop 0), .op (.push 1),
      .op (.begin (.forceSend (2 : ℕ)) 0), .op (.push 2)], rfl⟩
    ⟨⟨1, .stop⟩, List.mem_of_getElem? (i := 1) rfl, rfl⟩⟩

/-! ### Sending the `Stop` -/

namespace Environment

variable {E : Environment A} {a : A.State} {c : A.Ctx} {s t u : Sys A} {h : ℕ}

theorem run_pair {l k : Label A} (hrun : E.system.run s [l, k] = some t) :
    ∃ u, E.step s l = some u ∧ E.step u k = some t := by
  obtain ⟨u, hu, hrun⟩ := Machine.run_cons.mp hrun
  obtain ⟨v, hv, hrun⟩ := Machine.run_cons.mp hrun
  obtain rfl : v = t := Option.some_inj.mp hrun
  exact ⟨u, hu, hv⟩

/-- What a `Stop` that is pushed costs. -/
theorem stop_cost {rank : A.Fut → ℕ} (hf : A.Finishing rank) {n : ℕ}
    (hrun : E.system.run s [.op (.begin .stop h), .op (.push s.ops.length)] = some t) :
    t.cost rank E n ≤ s.cost rank E n + 3 := by
  obtain ⟨u, hu, hv⟩ := run_pair hrun
  have hbegin := E.step_cost (n := n) hf (fun hd => by cases hd) hu
  have hpush := E.step_cost (n := n) hf (fun hd => by cases hd) hv
  simp only [Sys.works, OpLabel.inner, Label.grant, Method.payload, Payload.cost, if_true,
    Bool.false_eq_true, if_false] at hbegin hpush
  omega

/-- As long as the receiver is there the mailbox accepts the `Stop`. -/
theorem stop_told (hr : E.Reachable a c s)
    (hrun : E.system.run s [.op (.begin .stop h), .op (.push s.ops.length)] = some t)
    (hrec : s.chan.receiver = true) : t.Told := by
  have ht : E.Reachable a c t := hr.trans ⟨_, hrun⟩
  obtain ⟨u, hu, hv⟩ := run_pair hrun
  have hphase : u.phase = s.phase := by
    obtain ⟨es, hop⟩ := Sys.opStep_cases (l := .begin .stop h) hu
    exact (Sys.opStep_outside hop).1.phase
  obtain ⟨e, he, hid⟩ := push_accepted hv (by
    rw [(hr.next hu).receiverHeld, hphase, ← hr.receiverHeld, hrec])
  obtain ⟨o, ho, hpay, -⟩ := ht.enqueued.op e he
  -- the operation that was begun is the one that was pushed
  obtain ⟨o₁, hm, hops, -⟩ := step_begin hu
  obtain ⟨o₂, ho₂, hm₂⟩ := step_op hv (j := s.ops.length) (o := o₁) (by rw [hops]; simp)
  rw [hid, ho₂, Option.some_inj] at ho
  exact ⟨e, he, by rw [hpay, ← ho, hm₂, hm]; rfl⟩

end Environment

/-! ### `OwningAddr::consume` -/

/-- The call goes on, or the step goes on with something that was begun. -/
def Consuming.works (x : Consuming A) : ConsumeLabel A → Bool
  | .consume => true
  | .env l => x.sys.worksSilent l

/-- Sending the `Stop` costs at most three more than it pays, making the join two. -/
def Consume.cost : Consume A → ℕ
  | .called => 7
  | .stopped => 3
  | .joining _ => 0
  | .returned _ => 0

/-- Where the call has not failed, the actor has been told to stop. -/
def Consuming.Told (x : Consuming A) : Prop :=
  x.stage = .called ∨ x.stage = .returned (.error .asyncSendError) ∨ x.sys.Told

namespace Environment

variable {E : Environment A} {a : A.State} {c : A.Ctx} {s : Sys A} {h : ℕ} {x y : Consuming A}

theorem consuming_told {l : ConsumeLabel A} (hg : x.Good E a c h) (hx : x.Told)
    (hst : (E.consuming h).step x l = some y) : y.Told := by
  cases l with
  | env l =>
    obtain ⟨-, hst, hstage⟩ := consuming_env hst
    unfold Consuming.Told at hx ⊢
    rw [hstage]
    exact hx.imp id (Or.imp id fun ht => told_step ht hst)
  | consume =>
    have hy : x.consume E h = some y := hst
    rcases hx with hx | hx | hx
    · obtain ⟨y', hy', -, -, hstage⟩ := consume_called hg.1 hx hg.2
      obtain rfl := Option.some_inj.mp (hy.symm.trans hy')
      -- the `Stop` is accepted exactly if the receiver is there
      cases hrec : x.sys.chan.receiver with
      | false => exact .inr (.inl (by simp [hstage, hrec]))
      | true =>
        refine .inr (.inr ?_)
        simp only [Consuming.consume, hx] at hy
        obtain ⟨t, ht, hy⟩ := Option.bind_eq_some_iff.mp hy
        have htold := stop_told hg.1 ht hrec
        split at hy <;> cases hy <;> exact htold
    · simp [Consuming.consume, hx] at hy
    · obtain ⟨ls, hls⟩ := consume_reaches hy
      exact .inr (.inr (Machine.invariant (P := Sys.Told) (fun _ _ _ ht hst => told_step ht hst)
        hx ⟨ls, hls⟩))

/-- Every step of the call and of the runtime is paid for. -/
theorem consuming_cost {rank : A.Fut → ℕ} (hf : A.Finishing rank) {l : ConsumeLabel A}
    (hl : x.works l = true) (hst : (E.consuming h).step x l = some y) :
    y.sys.cost rank E 0 + y.stage.cost < x.sys.cost rank E 0 + x.stage.cost := by
  cases l with
  | env l =>
    obtain ⟨-, hst, hstage⟩ := consuming_env hst
    rw [hstage]
    exact Nat.add_lt_add_right (silent_cost hf hl hst) _
  | consume =>
    have hy : x.consume E h = some y := hst
    cases hx : x.stage with
    | called =>
      simp only [Consuming.consume, hx] at hy
      obtain ⟨t, ht, hy⟩ := Option.bind_eq_some_iff.mp hy
      have hcost := stop_cost hf (n := 0) ht
      split at hy <;> cases hy <;> simp only [Consume.cost] <;> omega
    | stopped =>
      simp only [Consuming.consume, hx] at hy
      obtain ⟨t, ht, rfl⟩ := Option.map_eq_some_iff.mp hy
      have hcost := E.step_cost (n := 0) hf (fun hd => by cases hd) ht
      simp only [Label.grant, Sys.works, WatchLabel.inner, Bool.false_eq_true, if_false] at hcost
      simp only [Consume.cost]
      omega
    | joining j =>
      simp only [Consuming.consume, hx] at hy
      obtain ⟨t, ht, rfl⟩ := Option.map_eq_some_iff.mp hy
      have hcost := silent_cost hf (l := .watch (.pollJoin j)) rfl ht
      split <;> simpa [Consume.cost] using hcost
    | returned r => simp [Consuming.consume, hx] at hy

/-- Where nothing is left to do the call has returned. -/
theorem consuming_quiet [Nonempty A.World] (hg : x.Good E a c h) (htold : x.Told)
    (hq : (E.consuming h).Quiet Consuming.works x) : ∃ r, x.stage = .returned r := by
  have hcall : x.consume E h = none := hq .consume rfl
  cases hx : x.stage with
  | called =>
    obtain ⟨y, hy, -⟩ := consume_called hg.1 hx hg.2
    rw [hcall] at hy
    cases hy
  | stopped =>
    obtain ⟨y, hy, -⟩ := consume_stopped (E := E) hx hg.2
    rw [hcall] at hy
    cases hy
  | returned r => exact ⟨r, rfl⟩
  | joining j =>
    have hfit := hg.2
    unfold Consuming.Fit at hfit
    rw [hx] at hfit
    obtain ⟨rfl, hjoins⟩ := hfit
    -- nothing in the system goes on either: the only join is the call's
    have hsys : E.system.Quiet Sys.worksSilent x.sys := by
      intro l hl
      by_cases hj : l.joins = true
      · cases l with
        | watch l =>
          cases l with
          | pollJoin j =>
            show x.sys.pollJoin j = none
            cases j with
            | zero => simpa [Consuming.consume, hx, step, Sys.watchStep] using hcall
            | succ j => rcases hjoins with ⟨hj, -⟩ | hj <;> simp [Sys.pollJoin, hj]
          | await i | join i | dropJoin i => cases hl
        | handle l | op l | loop l => cases hj
      · have hfrees : x.stage.frees h l = true := by
          cases l with
          | handle l => cases hl
          | op l | loop l | watch l => simpa [hx, Consume.frees] using hj
        have hstep : (E.consuming h).step x (.env l) = none := hq (.env l) hl
        simpa [consuming, hfrees, system] using hstep
    have hrest := Reachable.atRest hsys hg.1
    have htold : x.sys.Told := by simpa [Consuming.Told, hx] using htold
    obtain ⟨o, ho⟩ := hg.1.told_ended htold hrest
    obtain ⟨y, hy, -⟩ := (consume_joining hx hg.2).1 o ho
    rw [hcall] at hy
    cases hy

end Environment

/-- **A call of `consume` comes back.**  Whatever the schedule, the loop ends and the call
returns; unless it came too late to tell the actor to stop, it returns what the loop did,
and an actor that it gets from a loop without a stream has handled what was accepted in
front of the first `Stop`. -/
theorem consume_settles {E : Environment A} [Nonempty A.World] {rank : A.Fut → ℕ}
    (hf : A.Finishing rank) {a : A.State} {c : A.Ctx} {s : Sys A} (hs : E.Reachable a c s)
    (hj : s.joins = []) {h : ℕ} {hd : Handle} (hh : s.handle? h = some hd)
    (hk : hd.kind = .owningAddr) :
    (E.consuming h).Inevitably Consuming.works
      (fun y => ∃ r o, y.stage = .returned r ∧ y.sys.phase = .ended o ∧
        (r = .error .asyncSendError ∨ r = o.consumed) ∧
        ∀ b, r = .ok b → .streamEnd ∉ y.sys.trace → y.sys.HandledToStop) ⟨s, .called⟩ := by
  -- nobody has made a join future, so nobody took the handle
  have hslot : s.joinSlot = true := by
    by_contra hno
    have hne := hs.joins.empty (by simpa using hno)
    obtain ⟨j, hmem⟩ := List.exists_mem_of_ne_nil _ hne
    have hlt := hs.joins.fresh j hmem
    rw [hj] at hlt
    exact absurd hlt (Nat.not_lt_zero j)
  have hg : Consuming.Good E a c h ⟨s, .called⟩ := ⟨hs, ⟨hj, hslot⟩, hd, hh, hk⟩
  refine (Machine.inevitably_quiet (I := fun x : Consuming A => x.Good E a c h ∧ x.Told)
    Nat.lt_wfRel.wf (fun x => x.sys.cost rank E 0 + x.stage.cost) ?_ ?_
    ⟨hg, .inl rfl⟩).mono ?_
  · exact fun x l y hx _ hst =>
      ⟨Environment.consuming_step hx.1 hst, Environment.consuming_told hx.1 hx.2 hst⟩
  · exact fun x l y _ hl hst => Environment.consuming_cost hf hl hst
  · rintro y ⟨⟨hg, htold⟩, hq⟩
    obtain ⟨r, hr⟩ := Environment.consuming_quiet hg htold hq
    have hfit := hg.2
    unfold Consuming.Fit at hfit
    rw [hr] at hfit
    obtain ⟨o, ho, hres⟩ := hfit
    refine ⟨r, o, hr, ho, hres, ?_⟩
    rintro b rfl hn
    have htold : y.sys.Told := by simpa [Consuming.Told, hr] using htold
    obtain rfl : o = .ok b := by
      rcases hres with hres | hres
      · cases hres
      · cases o <;> simp [Exit.consumed] at hres
        rw [hres]
    exact hg.1.handledToStop htold ho hn

/-- The actor that is consumed still has a message to handle. -/
theorem consume_settles_of_send : ∃ s, Patient.plain.system.run (Patient.spawn Patient.plain)
      [.op (.begin (.forceSend (1 : ℕ)) 0), .op (.push 0)] = some s ∧
      (Patient.plain.consuming 0).Inevitably Consuming.works
        (fun y => ∃ r o, y.stage = .returned r ∧ y.sys.phase = .ended o ∧
          (r = .error .asyncSendError ∨ r = o.consumed) ∧
          ∀ b, r = .ok b → .streamEnd ∉ y.sys.trace → y.sys.HandledToStop) ⟨s, .called⟩ :=
  ⟨_, rfl, consume_settles Patient.finishing (a := (0 : ℕ)) (c := ())
    ⟨[.op (.begin (.forceSend (1 : ℕ)) 0), .op (.push 0)], rfl⟩ rfl rfl rfl⟩

/-! ### `Addr::stop_and_join` -/

/-- Where a call of `stop_and_join` stands. -/
inductive StopAndJoin where
  | called
  | stopped
  | returned (r : Except ActorError Unit)

/-- An actor and a call of `stop_and_join` on one of its `Addr`s. -/
structure Halting (A : Actor) where
  sys : Sys A
  stage : StopAndJoin

inductive HaltLabel (A : Actor) where
  | halt
  | env (l : Label A)

/-- The call owns the `Addr` `h` and drops it when it returns: `self.stop()?; self.await`. -/
def Halting.halt (E : Environment A) (h : ℕ) (x : Halting A) : Option (Halting A) :=
  match x.stage with
  | .called =>
    (E.system.run x.sys [.op (.begin .stop h), .op (.push x.sys.ops.length)]).bind fun t =>
      match t.ops[x.sys.ops.length]?.map Op.state with
      | some (.returned (.ok _)) => some ⟨t, .stopped⟩
      | some (.returned (.error e)) =>
        (E.step t (.handle (.drop h))).map fun u => ⟨u, .returned (.error e)⟩
      | _ => none
  | .stopped =>
    match x.sys.running.poll with
    | .ready r =>
      (E.system.run x.sys [.watch (.await h), .handle (.drop h)]).map fun t =>
        ⟨t, .returned (r.mapError fun _ => .canceled)⟩
    | .pending => none
  | .returned _ => none

namespace Environment

/-- Nobody else uses the `Addr` of the call. -/
def halting (E : Environment A) (h : ℕ) : Machine (Halting A) (HaltLabel A) where
  step x
    | .halt => x.halt E h
    | .env l => if l.uses = some h then none else (E.step x.sys l).map fun t => ⟨t, x.stage⟩

end Environment

/-- What an awaited `Addr` makes of the outcome of the loop. -/
def Exit.halted : Exit A → Except ActorError Unit
  | .ok _ => .ok ()
  | _ => .error .canceled

/-- The `Addr` is there, was not awaited before, and nothing borrows it. -/
def Sys.Spare (s : Sys A) (h : ℕ) : Prop :=
  (∃ hd, s.handle? h = some hd ∧ hd.kind = .addr ∧ hd.spent = false) ∧ s.borrowed h = false

/-- The call has its `Addr` and has told the actor to stop; where it has returned, the loop
had ended before it was called, or the `Addr` resolved. -/
def Halting.Fit (h : ℕ) (x : Halting A) : Prop :=
  match x.stage with
  | .called => x.sys.Spare h
  | .stopped => x.sys.Spare h ∧ x.sys.Told
  | .returned r => r = .error .asyncSendError ∧ (∃ o, x.sys.phase = .ended o) ∨
      ∃ r', .resolved h r' ∈ x.sys.trace ∧ r = r'.mapError (fun _ => .canceled) ∧ x.sys.Told

def Halting.works (x : Halting A) : HaltLabel A → Bool
  | .halt => true
  | .env l => x.sys.worksSilent l

def StopAndJoin.cost : StopAndJoin → ℕ
  | .called => 5
  | .stopped => 1
  | .returned _ => 0

namespace Environment

variable {E : Environment A} {a : A.State} {c : A.Ctx} {s t : Sys A} {h : ℕ} {x y : Halting A}

/-- What comes of a `Stop` is known at once. -/
theorem pushOp_stop (s : Sys A) (x : Access) :
    ((s.beginOp .stop x).pushOp s.ops.length ⟨.stop, x, .begun⟩).ops = s.ops ++
        [⟨.stop, x, .returned
          (if s.chan.receiver then .ok none else .error .asyncSendError)⟩] ∧
      ((s.beginOp .stop x).pushOp s.ops.length ⟨.stop, x, .begun⟩).phase = s.phase ∧
      ((s.beginOp .stop x).pushOp s.ops.length ⟨.stop, x, .begun⟩).handles = s.handles := by
  have hset : ∀ o : Op A, (s.ops ++ [(⟨.stop, x, .begun⟩ : Op A)]).set s.ops.length o =
      s.ops ++ [o] := by
    intro o
    rw [List.set_append_right _ _ (Nat.le_refl _), Nat.sub_self, List.set_cons_zero]
  have hrec : (s.beginOp .stop x).chan.receiver = s.chan.receiver := rfl
  unfold Sys.pushOp
  split
  · next d hd =>
    rw [← hrec, (Mpsc.push_eq_some hd).1, if_pos rfl]
    exact ⟨hset _, rfl, rfl⟩
  · next hd =>
    rw [← hrec, Mpsc.push_eq_none.mp hd, if_neg (by simp)]
    exact ⟨hset _, rfl, rfl⟩

/-- `self.stop()` -/
theorem spare_stop (hs : s.Spare h) :
    ∃ t, E.system.run s [.op (.begin .stop h), .op (.push s.ops.length)] = some t ∧
      t.Spare h ∧ t.phase = s.phase ∧ t.ops[s.ops.length]?.map Op.state =
        some (.returned (if s.chan.receiver then .ok none else .error .asyncSendError)) := by
  obtain ⟨⟨hd, hh, hk, hspent⟩, hb⟩ := hs
  have hbegin : E.step s (.op (.begin .stop h)) = some (s.beginOp .stop (.borrowed h)) := by
    simp [step, Sys.opStep, hh, hk, HandleKind.offers, HandleKind.strong, HandleKind.access]
  have hop : (s.beginOp .stop (.borrowed h)).ops[s.ops.length]? =
      some ⟨.stop, .borrowed h, .begun⟩ := List.getElem?_concat_length
  have hpush : E.step (s.beginOp .stop (.borrowed h)) (.op (.push s.ops.length)) =
      some ((s.beginOp .stop (.borrowed h)).pushOp s.ops.length ⟨.stop, .borrowed h, .begun⟩) := by
    simp only [step, Sys.opStep, hop]
  obtain ⟨hops, hphase, hhs⟩ := pushOp_stop s (.borrowed h)
  refine ⟨_, Machine.run_cons.mpr ⟨_, hbegin, Machine.run_cons.mpr ⟨_, hpush, rfl⟩⟩,
    ⟨⟨hd, by rwa [Sys.handle?, hhs], hk, hspent⟩, ?_⟩, hphase, by simp [hops]⟩
  rw [Sys.borrowed] at hb ⊢
  rw [hops, List.any_append, hb]
  simp [OpState.live]

/-- The `Addr` of the call can be dropped. -/
theorem spare_drop (hs : s.Spare h) :
    ∃ t, E.step s (.handle (.drop h)) = some t ∧ t.phase = s.phase ∧ t.trace = s.trace := by
  obtain ⟨⟨hd, hh, -⟩, hb⟩ := hs
  exact ⟨s.dropHandle h hd, by simp [step, Sys.handleStep, hh, hb], rfl, rfl⟩

/-- `self.await` behind the end of the loop -/
theorem spare_await (hs : s.Spare h) {r : Except Canceled Unit} (hr : s.running.poll = .ready r) :
    ∃ t, E.system.run s [.watch (.await h), .handle (.drop h)] = some t ∧
      t.trace = s.trace ++ [.resolved h r] := by
  obtain ⟨⟨hd, hh, hk, hspent⟩, hb⟩ := hs
  obtain ⟨u, hu, hhu, hbu, htr⟩ : ∃ u, E.step s (.watch (.await h)) = some u ∧
      u.handle? h = some { hd with spent := true } ∧ u.borrowed h = false ∧
      u.trace = s.trace ++ [.resolved h r] := by
    have hst : E.step s (.watch (.await h)) = some (({ s with
        running := s.running.complete r
        handles := s.handles.set h { hd with spent := true } }).record [.resolved h r]) := by
      simp only [step, Sys.watchStep, hh, hr]
      rw [if_pos (by simp [hk, hspent])]
    refine ⟨_, hst, ?_, hb, rfl⟩
    rw [Sys.handle?_eq_some] at hh ⊢
    exact ⟨List.getElem?_set_self (List.getElem?_eq_some_iff.mp hh.1).1, hh.2⟩
  refine ⟨u.dropHandle h { hd with spent := true }, ?_, htr⟩
  refine Machine.run_cons.mpr ⟨u, hu, Machine.run_cons.mpr ⟨_, ?_, rfl⟩⟩
  show u.handleStep (.drop h) = _
  simp [Sys.handleStep, hhu, hbu]

theorem spare_step {l : Label A} (hs : s.Spare h) (hst : E.step s l = some t)
    (hl : l.uses ≠ some h) : t.Spare h := by
  obtain ⟨⟨hd, hh, hk⟩, hb⟩ := hs
  refine ⟨⟨hd, step_handle hst hh ?_ ?_, hk⟩, step_borrowed hst hb hl⟩ <;>
    (rintro rfl; exact hl rfl)

theorem halting_env {l : Label A} (hst : (E.halting h).step x (.env l) = some y) :
    l.uses ≠ some h ∧ E.step x.sys l = some y.sys ∧ y.stage = x.stage := by
  simp only [halting] at hst
  split at hst
  · cases hst
  · next hl =>
    obtain ⟨t, ht, rfl⟩ := Option.map_eq_some_iff.mp hst
    exact ⟨hl, ht, rfl⟩

/-- The call tells the actor to stop and goes on, or finds that it has stopped. -/
theorem halt_called {rank : A.Fut → ℕ} (hf : A.Finishing rank) (hr : E.Reachable a c x.sys)
    (hx : x.stage = .called) (hfit : x.Fit h) :
    ∃ y, x.halt E h = some y ∧ E.system.Reaches x.sys y.sys ∧ y.Fit h ∧
      y.sys.cost rank E 0 + y.stage.cost < x.sys.cost rank E 0 + x.stage.cost := by
  unfold Halting.Fit at hfit
  rw [hx] at hfit
  obtain ⟨t, ht, hspare, hphase, hop⟩ := spare_stop (E := E) hfit
  have hcost := stop_cost hf (n := 0) ht
  cases hrec : x.sys.chan.receiver with
  | true =>
    rw [hrec, if_pos rfl] at hop
    refine ⟨⟨t, .stopped⟩, by simp [Halting.halt, hx, ht, hop], ⟨_, ht⟩,
      ⟨hspare, stop_told hr ht hrec⟩, ?_⟩
    simp only [hx, StopAndJoin.cost]
    omega
  | false =>
    -- `self.stop()?` returns, and the `Addr` goes with the call
    rw [hrec, if_neg (by simp)] at hop
    obtain ⟨u, hu, hpu, -⟩ := spare_drop (E := E) hspare
    have hend : ∃ o, x.sys.phase = .ended o := by
      have hheld := hr.receiverHeld
      rw [Sys.ReceiverHeld, hrec] at hheld
      cases hp : x.sys.phase <;> simp [hp, Phase.isEnded] at hheld
      exact ⟨_, rfl⟩
    refine ⟨⟨u, .returned (.error .asyncSendError)⟩, by simp [Halting.halt, hx, ht, hop, hu],
      Machine.Reaches.trans ⟨_, ht⟩ (.single (l := .handle (.drop h)) hu),
      .inl ⟨rfl, by rwa [hpu, hphase]⟩, ?_⟩
    have hdrop := E.step_cost (n := 0) hf (fun hd => by cases hd) hu
    simp only [Sys.works, Label.grant, Bool.false_eq_true, if_false] at hdrop
    simp only [hx, StopAndJoin.cost]
    omega

/-- The await comes back once the stop notifier is used up. -/
theorem halt_stopped {rank : A.Fut → ℕ} (hf : A.Finishing rank) (hx : x.stage = .stopped)
    (hfit : x.Fit h) {r : Except Canceled Unit} (hp : x.sys.running.poll = .ready r) :
    ∃ y, x.halt E h = some y ∧ E.system.Reaches x.sys y.sys ∧ y.Fit h ∧
      y.sys.cost rank E 0 + y.stage.cost < x.sys.cost rank E 0 + x.stage.cost := by
  unfold Halting.Fit at hfit
  rw [hx] at hfit
  obtain ⟨hspare, htold⟩ := hfit
  obtain ⟨t, ht, htr⟩ := spare_await (E := E) hspare hp
  have htold : t.Told := Machine.invariant (P := Sys.Told)
    (fun _ _ _ hs hst => told_step hs hst) htold ⟨_, ht⟩
  refine ⟨⟨t, .returned (r.mapError fun _ => .canceled)⟩, by simp [Halting.halt, hx, hp, ht],
    ⟨_, ht⟩, .inr ⟨r, by rw [htr]; simp, rfl, htold⟩, ?_⟩
  obtain ⟨u, hu, hv⟩ := run_pair ht
  have hawait := E.step_cost (n := 0) hf (fun hd => by cases hd) hu
  have hdrop := E.step_cost (n := 0) hf (fun hd => by cases hd) hv
  simp only [Sys.works, Label.grant, WatchLabel.inner, Bool.false_eq_true, if_false] at hawait hdrop
  simp only [hx, StopAndJoin.cost]
  omega

/-- The call waits for nothing but the end of the loop. -/
theorem halt_cases {rank : A.Fut → ℕ} (hf : A.Finishing rank) (hr : E.Reachable a c x.sys)
    (hfit : x.Fit h) (hst : x.halt E h = some y) : E.system.Reaches x.sys y.sys ∧ y.Fit h ∧
      y.sys.cost rank E 0 + y.stage.cost < x.sys.cost rank E 0 + x.stage.cost := by
  cases hx : x.stage with
  | called =>
    obtain ⟨z, hz, hcall⟩ := halt_called hf hr hx hfit
    obtain rfl := Option.some_inj.mp (hst.symm.trans hz)
    exact hx ▸ hcall
  | stopped =>
    cases hp : x.sys.running.poll with
    | pending => simp [Halting.halt, hx, hp] at hst
    | ready r =>
      obtain ⟨z, hz, hcall⟩ := halt_stopped hf hx hfit hp
      obtain rfl := Option.some_inj.mp (hst.symm.trans hz)
      exact hx ▸ hcall
  | returned r => simp [Halting.halt, hx] at hst

theorem halting_fit {l : Label A} (hfit : x.Fit h) (hst : (E.halting h).step x (.env l) = some y) :
    y.Fit h := by
  obtain ⟨hl, hst, hstage⟩ := halting_env hst
  unfold Halting.Fit at hfit ⊢
  rw [hstage]
  cases hx : x.stage with
  | called =>
    rw [hx] at hfit
    exact spare_step hfit hst hl
  | stopped =>
    rw [hx] at hfit
    exact ⟨spare_step hfit.1 hst hl, told_step hfit.2 hst⟩
  | returned r =>
    rw [hx] at hfit
    obtain ⟨es, hes⟩ := step_cases hst
    rcases hfit with ⟨hr, o, ho⟩ | ⟨r', hmem, hr, htold⟩
    · exact .inl ⟨hr, o, hes.ended ho⟩
    · exact .inr ⟨r', by rw [hes.trace]; exact List.mem_append_left _ hmem, hr,
        told_step htold hst⟩

/-- Where nothing is left to do the loop has ended and the call has returned. -/
theorem halting_quiet [Nonempty A.World] (hr : E.Reachable a c x.sys) (hfit : x.Fit h)
    (hq : (E.halting h).Quiet Halting.works x) :
    ∃ r o, x.stage = .returned r ∧ x.sys.phase = .ended o := by
  have hcall : x.halt E h = none := hq .halt rfl
  have hsys : E.system.Quiet Sys.worksSilent x.sys := by
    intro l hl
    have hstep : (E.halting h).step x (.env l) = none := hq (.env l) hl
    simpa [halting, (Sys.worksSilent_uses hl).1, system] using hstep
  have hrest := Reachable.atRest hsys hr
  unfold Halting.Fit at hfit
  cases hx : x.stage with
  | called =>
    rw [hx] at hfit
    obtain ⟨t, ht, hspare, -, hop⟩ := spare_stop (E := E) hfit
    obtain ⟨u, hu, -⟩ := spare_drop (E := E) hspare
    split at hop <;> simp [Halting.halt, hx, ht, hop, hu] at hcall
  | stopped =>
    rw [hx] at hfit
    -- the loop has ended, so the stop notifier is used up and the `Addr` is ready
    obtain ⟨o, ho⟩ := hr.told_ended hfit.2 hrest
    obtain ⟨r, hpoll⟩ := o.notice_poll
    have hready : x.sys.running.poll = .ready r := by
      rw [Shared.poll_eq_ready hr.notified.faithful, hr.notified.inner, ho]
      exact hpoll
    obtain ⟨t, ht, -⟩ := spare_await (E := E) hfit.1 hready
    simp [Halting.halt, hx, hready, ht] at hcall
  | returned r =>
    rw [hx] at hfit
    rcases hfit with ⟨-, o, ho⟩ | ⟨r', -, -, htold⟩
    · exact ⟨r, o, rfl, ho⟩
    · obtain ⟨o, ho⟩ := hr.told_ended htold hrest
      exact ⟨r, o, rfl, ho⟩

end Environment

/-- **A call of `stop_and_join` comes back.**  Whatever the schedule, the loop ends and the
call returns; unless it came too late to tell the actor to stop, it returns `Ok` exactly if
the loop ended well, which without a stream means that what was accepted in front of the
first `Stop` has been handled. -/
theorem stop_and_join_settles {E : Environment A} [Nonempty A.World] {rank : A.Fut → ℕ}
    (hf : A.Finishing rank) {a : A.State} {c : A.Ctx} {s : Sys A} (hs : E.Reachable a c s)
    {h : ℕ} (hh : s.Spare h) :
    (E.halting h).Inevitably Halting.works
      (fun y => ∃ r o, y.stage = .returned r ∧ y.sys.phase = .ended o ∧
        (r = .error .asyncSendError ∨ r = o.halted ∧
          ∀ b, o = .ok b → .streamEnd ∉ y.sys.trace → y.sys.HandledToStop)) ⟨s, .called⟩ := by
  have hfit : Halting.Fit h ⟨s, .called⟩ := hh
  refine (Machine.inevitably_quiet (I := fun x : Halting A => E.Reachable a c x.sys ∧ x.Fit h)
    Nat.lt_wfRel.wf (fun x => x.sys.cost rank E 0 + x.stage.cost) ?_ ?_ ⟨hs, hfit⟩).mono ?_
  · rintro x l y ⟨hr, hfit⟩ - hst
    cases l with
    | halt =>
      obtain ⟨hreach, hy, -⟩ := Environment.halt_cases hf hr hfit hst
      exact ⟨hr.trans hreach, hy⟩
    | env l => exact ⟨hr.next (Environment.halting_env hst).2.1, Environment.halting_fit hfit hst⟩
  · rintro x l y ⟨hr, hfit⟩ hl hst
    cases l with
    | halt => exact (Environment.halt_cases hf hr hfit hst).2.2
    | env l =>
      obtain ⟨-, hst, hstage⟩ := Environment.halting_env hst
      rw [hstage]
      exact Nat.add_lt_add_right (Environment.silent_cost hf hl hst) _
  · rintro y ⟨⟨hr, hfit⟩, hq⟩
    obtain ⟨r, o, hstage, ho⟩ := Environment.halting_quiet hr hfit hq
    unfold Halting.Fit at hfit
    rw [hstage] at hfit
    refine ⟨r, o, hstage, ho, hfit.imp And.left ?_⟩
    rintro ⟨r', hmem, hres, htold⟩
    have hpoll := hr.notified.resolved h r' hmem
    rw [hr.notified.inner, ho] at hpoll
    refine ⟨?_, fun b hb hn => hr.handledToStop htold (hb ▸ ho) hn⟩
    rw [hres]
    cases o <;> cases hpoll <;> rfl

/-- An `Addr` of a running actor is used up. -/
theorem stop_and_join_settles_of_send : ∃ s, Patient.plain.system.run
      (Patient.spawn Patient.plain)
      [.handle (.derive 0 .addr), .op (.begin (.forceSend (1 : ℕ)) 1), .op (.push 0)] = some s ∧
      (Patient.plain.halting 1).Inevitably Halting.works
        (fun y => ∃ r o, y.stage = .returned r ∧ y.sys.phase = .ended o ∧
          (r = .error .asyncSendError ∨ r = o.halted ∧
            ∀ b, o = .ok b → .streamEnd ∉ y.sys.trace → y.sys.HandledToStop)) ⟨s, .called⟩ :=
  ⟨_, rfl, stop_and_join_settles Patient.finishing (a := (0 : ℕ)) (c := ())
    ⟨[.handle (.derive 0 .addr), .op (.begin (.forceSend (1 : ℕ)) 1), .op (.push 0)], rfl⟩
    ⟨⟨_, rfl, rfl, rfl⟩, rfl⟩⟩

end Hannibal
