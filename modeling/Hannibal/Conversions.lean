/-
Converting handles into each other.

Here the handles are values: the context id they carry and their closures, each of
them given by what it captures, the transmitters of the mailbox among it.  A chain
of conversions that starts at an `Addr` ends at the handle of its kind that is made
from the `Addr` directly (`convertAll_eq`), so

* `convertAll_id` — it carries the same context id;
* `convertAll_route` — what is sent through it goes through the transmitters of the
  `Addr`;
* `convert_step` — it is a step of the handle table.
-/
import Hannibal.Operations

namespace Hannibal

/-! ### The handles -/

/-- Which transmitters still have a strong reference.  They are named by numbers. -/
structure Strong where
  tx : ℕ → Bool
  force : ℕ → Bool

structure Addr where
  contextId : ℕ
  payloadTx : ℕ
  payloadForceTx : ℕ
  running : ℕ
  deriving DecidableEq

/-- The `upgrade` closure of addr/weak_addr.rs. -/
structure UpgradeAddr where
  weakTx : ℕ
  weakForceTx : ℕ
  contextId : ℕ
  runningInner : ℕ
  deriving DecidableEq

structure WeakAddr where
  contextId : ℕ
  upgrade : UpgradeAddr
  running : ℕ
  deriving DecidableEq

/-- The `upgrade` closure of addr/sender.rs and addr/weak_sender.rs. -/
structure UpgradeSender where
  weakTx : ℕ
  weakForceTx : ℕ
  id : ℕ
  deriving DecidableEq

/-- `downgradeFn` captures the `upgrade` closure and the id. -/
structure Sender where
  sendFn : ℕ
  forceSendFn : ℕ
  downgradeFn : UpgradeSender × ℕ
  id : ℕ
  deriving DecidableEq

structure WeakSender where
  upgrade : UpgradeSender
  id : ℕ
  deriving DecidableEq

/-- The `upgrade` closure of addr/caller.rs and addr/weak_caller.rs. -/
structure UpgradeCaller where
  weakTx : ℕ
  id : ℕ
  deriving DecidableEq

structure Caller where
  callFn : ℕ
  downgradeFn : UpgradeCaller × ℕ
  id : ℕ
  deriving DecidableEq

structure WeakCaller where
  upgrade : UpgradeCaller
  id : ℕ
  deriving DecidableEq

/-! ### The conversions -/

def Addr.clone (x : Addr) : Addr := ⟨x.contextId, x.payloadTx, x.payloadForceTx, x.running⟩

/-- `WeakAddr::from` -/
def Addr.downgrade (x : Addr) : WeakAddr where
  contextId := x.contextId
  upgrade := ⟨x.payloadTx, x.payloadForceTx, x.contextId, x.running⟩
  running := x.running

def UpgradeAddr.upgrade (u : UpgradeAddr) (r : Strong) : Option Addr :=
  if r.tx u.weakTx && r.force u.weakForceTx then
    some ⟨u.contextId, u.weakTx, u.weakForceTx, u.runningInner⟩
  else none

def WeakAddr.clone (x : WeakAddr) : WeakAddr := ⟨x.contextId, x.upgrade, x.running⟩

/-- `Sender::new` -/
def Sender.new (tx forceTx id : ℕ) : Sender where
  sendFn := tx
  forceSendFn := forceTx
  downgradeFn := (⟨tx, forceTx, id⟩, id)
  id := id

def UpgradeSender.upgrade (u : UpgradeSender) (r : Strong) : Option Sender :=
  if r.tx u.weakTx && r.force u.weakForceTx then some (Sender.new u.weakTx u.weakForceTx u.id)
  else none

def Sender.downgrade (x : Sender) : WeakSender := ⟨x.downgradeFn.1, x.downgradeFn.2⟩

def Sender.clone (x : Sender) : Sender := ⟨x.sendFn, x.forceSendFn, x.downgradeFn, x.id⟩

def WeakSender.fromWeakTx (weakTx weakForceTx id : ℕ) : WeakSender :=
  ⟨⟨weakTx, weakForceTx, id⟩, id⟩

def WeakSender.new (tx forceTx id : ℕ) : WeakSender := fromWeakTx tx forceTx id

def WeakSender.clone (x : WeakSender) : WeakSender := ⟨x.upgrade, x.id⟩

/-- `Caller::new` -/
def Caller.new (tx id : ℕ) : Caller where
  callFn := tx
  downgradeFn := (⟨tx, id⟩, id)
  id := id

def UpgradeCaller.upgrade (u : UpgradeCaller) (r : Strong) : Option Caller :=
  if r.tx u.weakTx then some (Caller.new u.weakTx u.id) else none

def Caller.downgrade (x : Caller) : WeakCaller := ⟨x.downgradeFn.1, x.downgradeFn.2⟩

def Caller.clone (x : Caller) : Caller := ⟨x.callFn, x.downgradeFn, x.id⟩

def WeakCaller.fromWeakTx (weakTx id : ℕ) : WeakCaller := ⟨⟨weakTx, id⟩, id⟩

def WeakCaller.new (tx id : ℕ) : WeakCaller := fromWeakTx tx id

def WeakCaller.clone (x : WeakCaller) : WeakCaller := ⟨x.upgrade, x.id⟩

def Addr.sender (x : Addr) : Sender := .new x.payloadTx x.payloadForceTx x.contextId

def Addr.weakSender (x : Addr) : WeakSender := .new x.payloadTx x.payloadForceTx x.contextId

def Addr.caller (x : Addr) : Caller := .new x.payloadTx x.contextId

def Addr.weakCaller (x : Addr) : WeakCaller := .new x.payloadTx x.contextId

/-! ### Chains of conversions -/

inductive AnyHandle where
  | addr (x : Addr)
  | sender (x : Sender)
  | caller (x : Caller)
  | weakAddr (x : WeakAddr)
  | weakSender (x : WeakSender)
  | weakCaller (x : WeakCaller)

inductive Conversion where
  | clone
  | sender
  | caller
  | weakSender
  | weakCaller
  | downgrade
  | upgrade
  deriving DecidableEq, Repr

namespace AnyHandle

def kind : AnyHandle → HandleKind
  | .addr _ => .addr
  | .sender _ => .sender
  | .caller _ => .caller
  | .weakAddr _ => .weakAddr
  | .weakSender _ => .weakSender
  | .weakCaller _ => .weakCaller

/-- The context id a handle carries. -/
def id : AnyHandle → ℕ
  | .addr x => x.contextId
  | .sender x => x.id
  | .caller x => x.id
  | .weakAddr x => x.contextId
  | .weakSender x => x.id
  | .weakCaller x => x.id

def clone : AnyHandle → AnyHandle
  | .addr x => .addr x.clone
  | .sender x => .sender x.clone
  | .caller x => .caller x.clone
  | .weakAddr x => .weakAddr x.clone
  | .weakSender x => .weakSender x.clone
  | .weakCaller x => .weakCaller x.clone

/-- One conversion, where the handle has it; an upgrade may fail. -/
def convert (r : Strong) : AnyHandle → Conversion → Option AnyHandle
  | x, .clone => some x.clone
  | .addr x, .sender => some (.sender x.sender)
  | .addr x, .caller => some (.caller x.caller)
  | .addr x, .weakSender => some (.weakSender x.weakSender)
  | .addr x, .weakCaller => some (.weakCaller x.weakCaller)
  | .addr x, .downgrade => some (.weakAddr x.downgrade)
  | .sender x, .downgrade => some (.weakSender x.downgrade)
  | .caller x, .downgrade => some (.weakCaller x.downgrade)
  | .weakAddr x, .upgrade => (x.upgrade.upgrade r).map .addr
  | .weakSender x, .upgrade => (x.upgrade.upgrade r).map .sender
  | .weakCaller x, .upgrade => (x.upgrade.upgrade r).map .caller
  | _, _ => none

/-- A chain of conversions, each with the strong references of its moment. -/
def convertAll : AnyHandle → List (Strong × Conversion) → Option AnyHandle
  | x, [] => some x
  | x, (r, c) :: l => (x.convert r c).bind fun y => y.convertAll l

/-- The handle of a kind made from an `Addr` directly. -/
def ofKind (x : Addr) : HandleKind → AnyHandle
  | .addr => .addr x
  | .owningAddr => .addr x
  | .sender => .sender x.sender
  | .caller => .caller x.caller
  | .weakAddr => .weakAddr x.downgrade
  | .weakSender => .weakSender x.weakSender
  | .weakCaller => .weakCaller x.weakCaller

theorem convert_eq {x : Addr} {k : HandleKind} {r : Strong} {c : Conversion} {y : AnyHandle}
    (h : (ofKind x k).convert r c = some y) : y = ofKind x y.kind := by
  cases k <;> cases c <;> simp only [ofKind, convert, reduceCtorEq, Option.some.injEq] at h
  -- an upgrade gives back what was captured
  case weakAddr.upgrade | weakSender.upgrade | weakCaller.upgrade =>
    obtain ⟨z, hz, rfl⟩ := Option.map_eq_some_iff.mp h
    simp only [UpgradeAddr.upgrade, UpgradeSender.upgrade, UpgradeCaller.upgrade] at hz
    split at hz
    · cases hz
      rfl
    · cases hz
  all_goals
    subst h
    rfl

/-- **A chain of conversions ends where one conversion leads.** -/
theorem convertAll_eq {x : Addr} {l : List (Strong × Conversion)} {y : AnyHandle}
    (h : (AnyHandle.addr x).convertAll l = some y) : y = ofKind x y.kind := by
  suffices hk : ∀ k, (ofKind x k).convertAll l = some y → y = ofKind x y.kind from hk .addr h
  clear h
  intro k h
  induction l generalizing k with
  | nil =>
    rw [convertAll, Option.some_inj] at h
    subst h
    cases k <;> rfl
  | cons p l ih =>
    obtain ⟨z, hz, h⟩ := Option.bind_eq_some_iff.mp h
    rw [convert_eq hz] at h
    exact ih _ h

theorem ofKind_id (x : Addr) (k : HandleKind) : (ofKind x k).id = x.contextId := by
  cases k <;> rfl

theorem convertAll_id {x : Addr} {l : List (Strong × Conversion)} {y : AnyHandle}
    (h : (AnyHandle.addr x).convertAll l = some y) : y.id = x.contextId := by
  rw [convertAll_eq h]
  exact ofKind_id x _

end AnyHandle

/-! ### What an operation goes through -/

inductive Transmitter where
  | payloadTx (n : ℕ)
  | payloadForceTx (n : ℕ)
  deriving DecidableEq

section Actor

variable {A : Actor}

/-- The transmitter an operation on an `Addr` sends through. -/
def Addr.route (x : Addr) (m : Method A) : Transmitter :=
  if m.awaited then .payloadTx x.payloadTx else .payloadForceTx x.payloadForceTx

def Sender.route (x : Sender) : Method A → Option Transmitter
  | .send _ => some (.payloadTx x.sendFn)
  | .forceSend _ => some (.payloadForceTx x.forceSendFn)
  | _ => none

def Caller.route (x : Caller) : Method A → Option Transmitter
  | .callerCall _ => some (.payloadTx x.callFn)
  | _ => none

/-- The transmitter an operation on a handle sends through, where the handle offers the
operation; the `try_` operations upgrade first. -/
def AnyHandle.route (r : Strong) : AnyHandle → Method A → Option Transmitter
  | .addr x, m => if HandleKind.addr.offers m then some (x.route m) else none
  | .sender x, m => x.route m
  | .caller x, m => x.route m
  | .weakAddr _, _ => none
  | .weakSender x, m => (x.upgrade.upgrade r).bind fun y => y.route m
  | .weakCaller x, m => (x.upgrade.upgrade r).bind fun y => y.route m

theorem Addr.route_sender {x : Addr} {m : Method A} {τ : Transmitter}
    (h : x.sender.route m = some τ) : τ = x.route m := by
  cases m with
  | send m | forceSend m =>
    cases h
    rfl
  | _ => cases h

theorem Addr.route_caller {x : Addr} {m : Method A} {τ : Transmitter}
    (h : x.caller.route m = some τ) : τ = x.route m := by
  cases m with
  | callerCall m =>
    cases h
    rfl
  | _ => cases h

theorem Addr.weakSender_upgrade {x : Addr} {r : Strong} {y : Sender}
    (h : x.weakSender.upgrade.upgrade r = some y) : y = x.sender := by
  unfold UpgradeSender.upgrade at h
  split at h
  · cases h
    rfl
  · cases h

theorem Addr.weakCaller_upgrade {x : Addr} {r : Strong} {y : Caller}
    (h : x.weakCaller.upgrade.upgrade r = some y) : y = x.caller := by
  unfold UpgradeCaller.upgrade at h
  split at h
  · cases h
    rfl
  · cases h

/-- Whatever leads to a handle, an operation on it goes through the transmitters of the
`Addr`: the awaited ones through one of them, the others through the other. -/
theorem AnyHandle.convertAll_route {x : Addr} {l : List (Strong × Conversion)} {y : AnyHandle}
    (h : (AnyHandle.addr x).convertAll l = some y) {r : Strong} {m : Method A} {τ : Transmitter}
    (hr : y.route r m = some τ) : τ = x.route m := by
  rw [convertAll_eq h] at hr
  cases hk : y.kind <;> rw [hk] at hr
  · simp only [ofKind, AnyHandle.route, Option.ite_none_right_eq_some] at hr
    exact (Option.some_inj.mp hr.2).symm
  · simp only [ofKind, AnyHandle.route, Option.ite_none_right_eq_some] at hr
    exact (Option.some_inj.mp hr.2).symm
  · exact Addr.route_sender hr
  · exact Addr.route_caller hr
  · cases hr
  · obtain ⟨z, hz, hr⟩ := Option.bind_eq_some_iff.mp hr
    rw [Addr.weakSender_upgrade hz] at hr
    exact Addr.route_sender hr
  · obtain ⟨z, hz, hr⟩ := Option.bind_eq_some_iff.mp hr
    rw [Addr.weakCaller_upgrade hz] at hr
    exact Addr.route_caller hr

/-- And what it offers it can do while both transmitters are left. -/
theorem AnyHandle.convertAll_offers {x : Addr} {l : List (Strong × Conversion)} {y : AnyHandle}
    (h : (AnyHandle.addr x).convertAll l = some y) {r : Strong} {m : Method A}
    (ho : y.kind.offers m = true) (htx : r.tx x.payloadTx = true)
    (hforce : r.force x.payloadForceTx = true) : y.route r m = some (x.route m) := by
  have hsender : x.weakSender.upgrade.upgrade r = some x.sender := by
    simp [UpgradeSender.upgrade, Addr.weakSender, WeakSender.new, WeakSender.fromWeakTx,
      Addr.sender, htx, hforce]
  have hcaller : x.weakCaller.upgrade.upgrade r = some x.caller := by
    simp [UpgradeCaller.upgrade, Addr.weakCaller, WeakCaller.new, WeakCaller.fromWeakTx,
      Addr.caller, htx]
  rw [convertAll_eq h]
  cases hk : y.kind <;> rw [hk] at ho
  · exact if_pos ho
  · exact if_pos (show HandleKind.addr.offers m = true by cases m <;> first | rfl | cases ho)
  · cases m <;> first | rfl | cases ho
  · cases m <;> first | rfl | cases ho
  · cases m <;> cases ho
  · -- a weak handle upgrades first
    show (x.weakSender.upgrade.upgrade r).bind (fun z => z.route m) = _
    rw [hsender]
    cases m <;> first | rfl | cases ho
  · show (x.weakCaller.upgrade.upgrade r).bind (fun z => z.route m) = _
    rw [hcaller]
    cases m <;> first | rfl | cases ho

/-! ### Conversions in the handle table -/

/-- The label of a conversion of the handle at `h`. -/
def Conversion.label (h : ℕ) (k : HandleKind) : Conversion → HandleLabel
  | .clone => .derive h k
  | .sender => .derive h .sender
  | .caller => .derive h .caller
  | .weakSender => .derive h .weakSender
  | .weakCaller => .derive h .weakCaller
  | .downgrade =>
    match k with
    | .sender => .derive h .weakSender
    | .caller => .derive h .weakCaller
    | _ => .derive h .weakAddr
  | .upgrade => .upgrade h

/-- The strong references to the transmitters of `x` are those of the state. -/
def Strong.Of (r : Strong) (x : Addr) (s : Sys A) : Prop :=
  (r.tx x.payloadTx = true ↔ 0 < s.arcs.tx) ∧ (r.force x.payloadForceTx = true ↔ 0 < s.arcs.force)

/-- The closures of the weak handles upgrade where the table does. -/
theorem AnyHandle.upgrade_kind {x : Addr} {s : Sys A} {r : Strong} (hr : r.Of x s) {k : HandleKind}
    {z : AnyHandle} (hz : (ofKind x k).convert r .upgrade = some z) :
    s.arcs.upgrade k = some z.kind := by
  obtain ⟨htx, hforce⟩ := hr
  cases k with
  | weakAddr =>
    obtain ⟨y, hy, rfl⟩ := Option.map_eq_some_iff.mp hz
    simp only [UpgradeAddr.upgrade, Addr.downgrade, Bool.and_eq_true, htx, hforce,
      Option.ite_none_right_eq_some] at hy
    exact if_pos hy.1
  | weakSender =>
    obtain ⟨y, hy, rfl⟩ := Option.map_eq_some_iff.mp hz
    simp only [UpgradeSender.upgrade, Addr.weakSender, WeakSender.new, WeakSender.fromWeakTx,
      Bool.and_eq_true, htx, hforce, Option.ite_none_right_eq_some] at hy
    exact if_pos hy.1
  | weakCaller =>
    obtain ⟨y, hy, rfl⟩ := Option.map_eq_some_iff.mp hz
    simp only [UpgradeCaller.upgrade, Addr.weakCaller, WeakCaller.new, WeakCaller.fromWeakTx,
      htx, Option.ite_none_right_eq_some] at hy
    exact if_pos hy.1
  | _ => cases hz

/-- Every other conversion derives the handle it yields. -/
theorem AnyHandle.convert_derives {x : Addr} {r : Strong} {k : HandleKind} (hk : k ≠ .owningAddr)
    {c : Conversion} (hc : c ≠ .upgrade) {z : AnyHandle}
    (hz : (ofKind x k).convert r c = some z) (h : ℕ) :
    c.label h k = .derive h z.kind ∧ k.derives z.kind = true := by
  cases k <;> cases c <;> simp only [ofKind, convert, reduceCtorEq, Option.some.injEq] at hz
  all_goals first
    | exact absurd rfl hc
    | exact absurd rfl hk
    | exact hz ▸ ⟨rfl, rfl⟩

/-- A conversion of a handle of the table is a step, which adds the handle of its kind. -/
theorem AnyHandle.convert_step {x : Addr} {s : Sys A} {r : Strong} (hr : r.Of x s) {h : ℕ}
    {hd : Handle} (hh : s.handle? h = some hd) {y : AnyHandle} (hk : y.kind = hd.kind)
    (hy : y = ofKind x y.kind) {c : Conversion} {z : AnyHandle} (hz : y.convert r c = some z) :
    s.handleStep (c.label h hd.kind) = some (s.addHandle z.kind hd.spent) := by
  have hno : hd.kind ≠ .owningAddr := by
    rw [← hk]
    cases y <;> simp [kind]
  rw [hy, hk] at hz
  by_cases hc : c = .upgrade
  · subst hc
    show s.handleStep (.upgrade h) = _
    simp only [Sys.handleStep, hh, upgrade_kind hr hz]
  · obtain ⟨hl, hd'⟩ := convert_derives hno hc hz h
    rw [hl]
    simp only [Sys.handleStep, hh, hd', if_true]

end Actor

end Hannibal
