/-
The owning address.

An `OwningAddr` is an `Addr` together with the handle of the actor's task, from which the
actor can be fetched once the loop has ended:

* `Step.owning` — no step makes an `OwningAddr`: what is derived from a handle, upgraded
  or asked of the context is none;
* `Reachable.owning_address` — the one address the actor was spawned with is the only one;
* **`ownership_given_up`** — turning it into an `Addr` costs the actor nothing but its way
  back: the mailbox stays as it is, and no join future is made any more.
-/
import Hannibal.Joining

namespace Hannibal

variable {A : Actor}

theorem Arcs.upgrade_not_owning {a : Arcs} {w k : HandleKind} (h : a.upgrade w = some k) :
    k ≠ .owningAddr := by
  cases w <;> simp only [Arcs.upgrade, Option.ite_none_right_eq_some, reduceCtorEq] at h
  all_goals
    obtain ⟨-, hk⟩ := h
    cases hk
    decide

theorem HandleKind.derives_not_owning {j k : HandleKind} (h : j.derives k = true) :
    k ≠ .owningAddr := by
  revert h
  cases j <;> cases k <;> decide

theorem Arcs.add_sub_cancel (a b : Arcs) : a + b - b = a := by
  obtain ⟨tx, force⟩ := a
  show (⟨tx + b.tx - b.tx, force + b.force - b.force⟩ : Arcs) = _
  rw [Nat.add_sub_cancel, Nat.add_sub_cancel]

namespace Sys

/-- The handle at `i` is, or was, an `OwningAddr`. -/
def Owning (s : Sys A) (i : ℕ) : Prop :=
  ∃ hd : Handle, s.handles[i]? = some hd ∧ hd.kind = .owningAddr

/-- No `OwningAddr` is left. -/
def Disowned (s : Sys A) : Prop := ∀ i hd, s.handle? i = some hd → hd.kind ≠ .owningAddr

/-- Of the handles of `t`, those that own the actor did so in `s`, and none of them came
back to life. -/
def Heirs (s t : Sys A) : Prop :=
  ∀ (i : ℕ) (hd : Handle), t.handles[i]? = some hd → hd.kind = .owningAddr →
    ∃ hd' : Handle, s.handles[i]? = some hd' ∧ hd'.kind = .owningAddr ∧
      (hd.alive = true → hd'.alive = true)

theorem Heirs.of_eq {s t : Sys A} (h : t.handles = s.handles) : s.Heirs t :=
  fun _ hd hh hk => ⟨hd, h ▸ hh, hk, id⟩

theorem Heirs.add {s : Sys A} {k : HandleKind} (b : Bool) (hk : k ≠ .owningAddr) :
    s.Heirs (s.addHandle k b) := by
  intro i hd hh ho
  rcases Nat.lt_or_ge i s.handles.length with hlt | hge
  · rw [addHandle, List.getElem?_append_left hlt] at hh
    exact ⟨hd, hh, ho, id⟩
  · -- the new handle is the last one
    rw [addHandle, List.getElem?_append_right hge] at hh
    have hmem := List.mem_of_getElem? hh
    rw [List.mem_singleton] at hmem
    subst hmem
    exact absurd ho hk

/-- A handle that is dropped or awaited keeps its kind. -/
theorem Heirs.set {s t : Sys A} {i : ℕ} {hd : Handle} (hd' : Handle) (hh : s.handle? i = some hd)
    (hk : hd'.kind = hd.kind) (ht : t.handles = s.handles.set i hd') : s.Heirs t := by
  obtain ⟨hi, hal⟩ := handle?_eq_some.mp hh
  intro j hj hhj ho
  rw [ht] at hhj
  rcases eq_or_ne i j with rfl | hne
  · rw [List.getElem?_set_self (List.getElem?_eq_some_iff.mp hi).1, Option.some_inj] at hhj
    subst hhj
    exact ⟨hd, hi, hk ▸ ho, fun _ => hal⟩
  · rw [List.getElem?_set_ne hne] at hhj
    exact ⟨hj, hhj, ho, id⟩

theorem Heirs.owning {s t : Sys A} (h : s.Heirs t) {i : ℕ} (ht : t.Owning i) : s.Owning i := by
  obtain ⟨hd, hh, hk⟩ := ht
  obtain ⟨hd', hh', hk', -⟩ := h i hd hh hk
  exact ⟨hd', hh', hk'⟩

theorem Heirs.disowned {s t : Sys A} (h : s.Heirs t) (hs : s.Disowned) : t.Disowned := by
  intro i hd hh hk
  obtain ⟨hi, hal⟩ := handle?_eq_some.mp hh
  obtain ⟨hd', hh', hk', hal'⟩ := h i hd hi hk
  exact hs i hd' (handle?_eq_some.mpr ⟨hh', hal' hal⟩) hk'

theorem handleStep_heirs {s t : Sys A} {l : HandleLabel} (h : s.handleStep l = some t) :
    s.Heirs t := by
  obtain ⟨i, hd, k, -, hk, rfl⟩ | ⟨w, k, b, hk, rfl⟩ | ⟨k, b, -, hk, rfl⟩ | ⟨i, hd, hh, -, rfl⟩ :=
    handleStep_cases h
  · exact Heirs.add _ (HandleKind.derives_not_owning hk)
  · exact Heirs.add _ (Arcs.upgrade_not_owning hk)
  · refine Heirs.add _ ?_
    rintro rfl
    cases hk
  · exact Heirs.set { hd with alive := false } hh rfl rfl

/-- The `OwningAddr` at `h` has become an `Addr`. -/
def disown (s : Sys A) (h : ℕ) (hd : Handle) : Sys A :=
  { s with
    handles := (s.handles ++ [(⟨.addr, true, hd.spent⟩ : Handle)]).set h
      { hd with alive := false } }

/-- Only a join adds a join future, and it takes an `OwningAddr`. -/
theorem watchStep_owning {s t : Sys A} {es : List (Event A)} (h : s.WatchStep t es) :
    s.Heirs t ∧ (s.Disowned → t.joins.length = s.joins.length) := by
  cases h with
  | await i hd r hh hk hs hr =>
    exact ⟨Heirs.set { hd with spent := true } hh rfl rfl, fun _ => rfl⟩
  | join i hd hh hk => exact ⟨Heirs.of_eq rfl, fun hs => absurd hk (hs i hd hh)⟩
  | _ => exact ⟨Heirs.of_eq rfl, fun _ => by simp⟩

end Sys

namespace Environment

variable {E : Environment A} {a : A.State} {c : A.Ctx} {s t : Sys A}

/-- No step makes an `OwningAddr`, and none that is left behind by the last one makes a
join future. -/
theorem Step.owning {es : List (Event A)} (h : E.Step s t es) :
    s.Heirs t ∧ (s.Disowned → t.joins.length = s.joins.length) := by
  cases h with
  | handle l h =>
    refine ⟨Sys.handleStep_heirs h, fun _ => ?_⟩
    obtain ⟨hs, ar, n, rfl⟩ := Sys.handleStep_frame h
    rfl
  | op es h => cases h <;> exact ⟨Sys.Heirs.of_eq rfl, fun _ => rfl⟩
  | loop es hb h =>
    have hu := h.untouched
    exact ⟨Sys.Heirs.of_eq hu.handles, fun _ => congrArg List.length hu.joins⟩
  | watch es h => exact Sys.watchStep_owning h

/-- The actor's only `OwningAddr` is the one it was spawned with. -/
theorem Reachable.owning_address (h : E.Reachable a c s) {i : ℕ} (hi : s.Owning i) : i = 0 := by
  refine reachable_induction (P := fun s => ∀ i, s.Owning i → i = 0) ?_
    (fun u v es _ _ hu hst i hi => hu i (hst.owning.1.owning hi)) h i hi
  rintro i ⟨hd, hh, -⟩
  have hlt : i < 1 := (List.getElem?_eq_some_iff.mp hh).1
  omega

/-- Behind the last `OwningAddr` no join future is made. -/
theorem Reachable.disowned (hs : s.Disowned) (h : E.system.Reaches s t) :
    t.Disowned ∧ t.joins.length = s.joins.length := by
  refine Machine.invariant (M := E.system)
    (P := fun u => u.Disowned ∧ u.joins.length = s.joins.length) (fun u l v hu hst => ?_)
    ⟨hs, rfl⟩ h
  obtain ⟨es, hstep⟩ := step_cases hst
  obtain ⟨hheirs, hjoins⟩ := hstep.owning
  exact ⟨hheirs.disowned hu.1, (hjoins hu.1).trans hu.2⟩

/-- `From<OwningAddr<A>> for Addr<A>`: the address inside is moved out, and the handle of the
task is dropped. -/
def intoAddr (h : ℕ) : List (Label A) := [.handle (.derive h .addr), .handle (.drop h)]

theorem intoAddr_run (hs : s.Counted) {h : ℕ} {hd : Handle} (hh : s.handle? h = some hd)
    (hk : hd.kind = .owningAddr) (hb : s.borrowed h = false) :
    E.system.run s (intoAddr h) = some (s.disown h hd) := by
  -- the move, as a clone that is made before the original is dropped
  have hderive : E.step s (.handle (.derive h .addr)) = some (s.addHandle .addr hd.spent) := by
    simp [step, Sys.handleStep, hh, hk, HandleKind.derives]
  have hh' : (s.addHandle .addr hd.spent).handle? h = some hd := by
    obtain ⟨hi, hal⟩ := Sys.handle?_eq_some.mp hh
    refine Sys.handle?_eq_some.mpr ⟨?_, hal⟩
    rw [Sys.addHandle, List.getElem?_append_left (List.getElem?_eq_some_iff.mp hi).1, hi]
  have hdrop : E.step (s.addHandle .addr hd.spent) (.handle (.drop h)) =
      some ((s.addHandle .addr hd.spent).dropHandle h hd) := by
    have hb' : (s.addHandle .addr hd.spent).borrowed h = false := hb
    simp [step, Sys.handleStep, hh', hb']
  refine Machine.run_cons.mpr ⟨_, hderive, Machine.run_cons.mpr ⟨_, hdrop, ?_⟩⟩
  -- the address shares both transmitters, so none of them goes
  have hcap : hd.kind.captures = HandleKind.addr.captures := by rw [hk]; rfl
  have hle := hs.handle_le hh
  have hcl : (s.arcs + HandleKind.addr.captures).closures = s.arcs.closures := by
    refine Arcs.closures_add (fun ht => ?_) fun hf => ?_
    · exact lt_of_lt_of_le ht (hcap ▸ hle.1)
    · exact lt_of_lt_of_le hf (hcap ▸ hle.2)
  rw [Machine.run_nil, Sys.dropHandle, hcap]
  simp [Sys.addHandle, Sys.releaseArcs, Sys.disown, Arcs.add_sub_cancel, hcl, Mpsc.dropSenders]

end Environment

/-- **The owning address, given up.**  There is one `OwningAddr` to an actor, the one it was
spawned with.  Where nothing borrows it, it turns into an `Addr`, and but for the handles
nothing changes: the mailbox keeps every sender, and whatever runs goes on.  From then on
there is no `OwningAddr` in any run, no join future is made any more, and the actor comes
back out of none but those made before, so that it never does where there are none. -/
theorem ownership_given_up {E : Environment A} {a : A.State} {c : A.Ctx} {s : Sys A}
    (hr : E.Reachable a c s) {h : ℕ} {hd : Handle} (hh : s.handle? h = some hd)
    (hk : hd.kind = .owningAddr) (hb : s.borrowed h = false) :
    h = 0 ∧ ∃ t, E.system.run s (Environment.intoAddr h) = some t ∧
      t.handle? s.handles.length = some ⟨.addr, true, hd.spent⟩ ∧
      t = { s with handles := t.handles } ∧
      ∀ ls u, E.system.run t ls = some u →
        u.Disowned ∧ u.joins.length = s.joins.length ∧
        (∀ j out, .joined j out ∈ u.trace → j < s.joins.length) ∧
        (s.joins = [] → fetched u.trace = []) := by
  obtain ⟨hi, hal⟩ := Sys.handle?_eq_some.mp hh
  have h0 : h = 0 := hr.owning_address ⟨hd, hi, hk⟩
  have hlt : h < s.handles.length := (List.getElem?_eq_some_iff.mp hi).1
  have hrun := Environment.intoAddr_run (E := E) hr.counted hh hk hb
  refine ⟨h0, _, hrun, ?_, rfl, fun ls u hu => ?_⟩
  · refine Sys.handle?_eq_some.mpr ⟨?_, rfl⟩
    rw [Sys.disown, List.getElem?_set_ne hlt.ne, List.getElem?_concat_length]
  · have hrt : E.Reachable a c (s.disown h hd) := hr.trans ⟨_, hrun⟩
    have hdis : (s.disown h hd).Disowned := by
      intro i x hx hxk
      obtain ⟨hxi, hxal⟩ := Sys.handle?_eq_some.mp hx
      -- it could be the dropped one only
      have hi0 : i = 0 := hrt.owning_address ⟨x, hxi, hxk⟩
      rw [hi0, ← h0, Sys.disown, List.getElem?_set_self (by simp; omega), Option.some_inj] at hxi
      subst hxi
      cases hxal
    obtain ⟨hu', hlen⟩ := Environment.Reachable.disowned hdis ⟨ls, hu⟩
    have hru : E.Reachable a c u := hrt.trans ⟨ls, hu⟩
    have hjoined : ∀ j out, .joined j out ∈ u.trace → j < s.joins.length := fun j out hm =>
      hlen ▸ hru.joins.fresh j (hru.joins.joined j out hm).2
    refine ⟨hu', hlen, hjoined, fun hnil => fetched_eq_nil fun j out hm => ?_⟩
    have := hjoined j out hm
    simp [hnil] at this

namespace Tally

/-- The owner sends a message. -/
def sentByOwner : List (Label tally) :=
  [.loop (.hook true), .op (.begin (.forceSend (1 : ℕ)) 0), .op (.push 0)]

end Tally

/-- The owner sends a message and goes. -/
theorem ownership_given_up_of_send : ∃ s t,
    Tally.plain.system.run (Tally.spawn Tally.plain) Tally.sentByOwner = some s ∧
    Tally.plain.system.run s (Environment.intoAddr 0) = some t ∧
    t.handle? 1 = some ⟨.addr, true, false⟩ ∧ t.chan.queue = s.chan.queue ∧
    ∀ ls u, Tally.plain.system.run t ls = some u → fetched u.trace = [] := by
  obtain ⟨s, hs, hh, hb, hj⟩ : ∃ s, Tally.plain.system.run (Tally.spawn Tally.plain)
      Tally.sentByOwner = some s ∧ s.handle? 0 = some ⟨.owningAddr, true, false⟩ ∧
      s.borrowed 0 = false ∧ s.joins = [] := ⟨_, rfl, rfl, rfl, rfl⟩
  obtain ⟨-, t, ht, hnew, hsame, hlater⟩ :=
    ownership_given_up (Tally.reachable _ hs) hh rfl hb
  have hlen : s.handles.length = 1 := by
    cases hs
    rfl
  rw [hlen] at hnew
  exact ⟨s, t, hs, ht, hnew, by rw [hsame], fun ls u hu => (hlater ls u hu).2.2.2 hj⟩

end Hannibal
