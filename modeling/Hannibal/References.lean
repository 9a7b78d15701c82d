/-
Who keeps the mailbox open.

`Counted` is the invariant behind everything here: the two strong counts are
what the live handles and the operations in progress hold, the channel has one
sender for each transmitter that still exists and one for each unfinished
`send`, and an operation in progress has something that keeps it going.  From
it follow

* `stream_ends_iff` — the payload stream ends exactly when nothing strong is
  left and everything accepted was taken;
* `weak_handles_agree_iff` — the weak handles agree with the existence of a
  strong one exactly when not only `Caller`s are left: `Caller::new` captures
  one of the two transmitters only.
-/
import Hannibal.History

namespace Hannibal

variable {A : Actor}

theorem Arcs.closures_eq_zero {a : Arcs} : a.closures = 0 ↔ a.tx = 0 ∧ a.force = 0 := by
  unfold Arcs.closures
  split <;> split <;> omega

/-- References made from existing ones make no transmitter come back. -/
theorem Arcs.closures_add {a b : Arcs} (ht : 0 < b.tx → 0 < a.tx)
    (hf : 0 < b.force → 0 < a.force) : (a + b).closures = a.closures := by
  simp only [Arcs.closures, Arcs.add_tx, Arcs.add_force]
  congr 1 <;> split <;> split <;> omega

theorem Arcs.closures_sub_le (a b : Arcs) : (a - b).closures ≤ a.closures := by
  simp only [Arcs.closures, Arcs.sub_tx, Arcs.sub_force]
  split <;> split <;> split <;> split <;> omega

/-- An upgrade succeeds only where the new handle's captures already exist. -/
theorem Arcs.upgrade_some {a : Arcs} {w k : HandleKind} (h : a.upgrade w = some k) :
    k.strong = true ∧ (0 < k.captures.tx → 0 < a.tx) ∧ (0 < k.captures.force → 0 < a.force) := by
  cases w <;> simp only [Arcs.upgrade, Option.ite_none_right_eq_some, reduceCtorEq] at h
  all_goals
    obtain ⟨h, hk⟩ := h
    cases hk
  · exact ⟨rfl, fun _ => h.1, fun _ => h.2⟩
  · exact ⟨rfl, fun _ => h.1, fun _ => h.2⟩
  · exact ⟨rfl, fun _ => h, fun hf => absurd hf (by decide)⟩

namespace HandleKind

/-- A derived handle captures nothing its source does not capture. -/
theorem derives_captures {j k : HandleKind} (h : j.derives k = true) :
    k.captures.tx ≤ j.captures.tx ∧ k.captures.force ≤ j.captures.force := by
  revert h
  cases j <;> cases k <;> decide

theorem strong_iff_captures_tx {k : HandleKind} : k.strong = true ↔ k.captures.tx = 1 := by
  cases k <;> decide

end HandleKind

/-- The strong references of a handle. -/
def Handle.arcs (hd : Handle) : Arcs := if hd.alive then hd.kind.captures else 0

namespace Op

/-- What keeps an operation in progress going. -/
def Kept (s : Sys A) (o : Op A) : Prop :=
  o.state.live = true →
    match o.access with
    | .borrowed h => ∃ hd, s.handle? h = some hd ∧ hd.kind.strong = true
    | .owned k => k.strong = true
    | .detached => o.method.awaited = true ∧ o.method.responds = false ∧ o.state.sending = true
    | .context => o.method.isFuture = false ∧ s.phase.hasContext = true

/-- It is enough that strong handles stay and that the context stays in use. -/
theorem Kept.mono {s t : Sys A} {o : Op A} (h : o.Kept s)
    (hh : ∀ i, o.access = .borrowed i → (∃ hd, s.handle? i = some hd ∧ hd.kind.strong = true) →
      ∃ hd, t.handle? i = some hd ∧ hd.kind.strong = true)
    (hp : o.access = .context → s.phase.hasContext = true → t.phase.hasContext = true) :
    o.Kept t := by
  intro hl
  have := h hl
  cases ha : o.access with
  | borrowed i =>
    simp only [ha] at this ⊢
    exact hh i ha this
  | owned k => simpa only [ha] using this
  | detached => simpa only [ha] using this
  | context =>
    simp only [ha] at this ⊢
    exact ⟨this.1, hp ha this.2⟩

theorem Kept.congr {s t : Sys A} {o : Op A} (h : o.Kept s) (hh : t.handles = s.handles)
    (hp : t.phase = s.phase) : o.Kept t :=
  h.mono (fun i _ hi => by simpa only [Sys.handle?, hh] using hi) fun _ hc => hp ▸ hc

end Op

namespace Sys

/-- The strong references that the handles and the operations in progress
hold. -/
def heldTx (s : Sys A) : ℕ :=
  (s.handles.map fun hd => hd.arcs.tx).sum + (s.ops.map fun o => o.arcs.tx).sum

def heldForce (s : Sys A) : ℕ :=
  (s.handles.map fun hd => hd.arcs.force).sum + (s.ops.map fun o => o.arcs.force).sum

structure Counted (s : Sys A) : Prop where
  tx : s.arcs.tx = s.heldTx
  force : s.arcs.force = s.heldForce
  senders : s.chan.senders = s.arcs.closures + (s.ops.map Op.clones).sum
  kept : ∀ o ∈ s.ops, o.Kept s

/-! ### The primitive changes -/

theorem Counted.addHandle {s : Sys A} (hs : s.Counted) {k : HandleKind} {b : Bool}
    (ht : 0 < k.captures.tx → 0 < s.arcs.tx) (hf : 0 < k.captures.force → 0 < s.arcs.force) :
    (s.addHandle k b).Counted where
  tx := by
    have := hs.tx
    simp only [Sys.addHandle, heldTx, Arcs.add_tx, List.map_append, List.map_cons, List.map_nil,
      List.sum_append, List.sum_cons, List.sum_nil, Handle.arcs, if_true] at this ⊢
    omega
  force := by
    have := hs.force
    simp only [Sys.addHandle, heldForce, Arcs.add_force, List.map_append, List.map_cons,
      List.map_nil, List.sum_append, List.sum_cons, List.sum_nil, Handle.arcs, if_true] at this ⊢
    omega
  senders := by
    show s.chan.senders = (s.arcs + k.captures).closures + _
    rw [Arcs.closures_add ht hf]
    exact hs.senders
  kept := by
    intro o ho
    refine (hs.kept o ho).mono (fun i _ hi => ?_) fun _ hp => hp
    obtain ⟨hd, hh, hst⟩ := hi
    rw [handle?_eq_some] at hh
    refine ⟨hd, handle?_eq_some.mpr ⟨?_, hh.2⟩, hst⟩
    have hlt : i < s.handles.length := (List.getElem?_eq_some_iff.mp hh.1).1
    rw [Sys.addHandle, List.getElem?_append_left hlt]
    exact hh.1

/-- The handle at an index holds its share of the references. -/
theorem Counted.handle_le {s : Sys A} (hs : s.Counted) {h : ℕ} {hd : Handle}
    (hh : s.handle? h = some hd) :
    hd.kind.captures.tx ≤ s.arcs.tx ∧ hd.kind.captures.force ≤ s.arcs.force := by
  rw [handle?_eq_some] at hh
  have hmem : hd ∈ s.handles := List.mem_of_getElem? hh.1
  have ht := Table.le_sum_map (f := fun hd : Handle => hd.arcs.tx) hmem
  have hf := Table.le_sum_map (f := fun hd : Handle => hd.arcs.force) hmem
  simp only [Handle.arcs, hh.2, if_true] at ht hf
  have h1 := hs.tx
  have h2 := hs.force
  simp only [heldTx, heldForce, Handle.arcs] at h1 h2
  omega

theorem Counted.dropHandle {s : Sys A} (hs : s.Counted) {i : ℕ} {hd : Handle}
    (hh : s.handle? i = some hd) (hb : s.borrowed i = false) : (s.dropHandle i hd).Counted := by
  obtain ⟨hle, hlf⟩ := hs.handle_le hh
  have hget := (handle?_eq_some.mp hh).1
  have hal := (handle?_eq_some.mp hh).2
  have ht := Table.sum_map_set (f := fun hd : Handle => hd.arcs.tx)
    (b := { hd with alive := false }) hget
  have hf := Table.sum_map_set (f := fun hd : Handle => hd.arcs.force)
    (b := { hd with alive := false }) hget
  have hot : hd.arcs = hd.kind.captures := by simp [Handle.arcs, hal]
  have hnt : Handle.arcs { hd with alive := false } = 0 := by simp [Handle.arcs]
  simp only [hot, hnt, Arcs.zero_tx, Arcs.zero_force] at ht hf
  have htx := hs.tx
  have hforce := hs.force
  have hsend := hs.senders
  have hcl := Arcs.closures_sub_le s.arcs hd.kind.captures
  refine ⟨?_, ?_, ?_, ?_⟩
  · simp only [Sys.dropHandle, releaseArcs, heldTx, Arcs.sub_tx] at htx ⊢
    omega
  · simp only [Sys.dropHandle, releaseArcs, heldForce, Arcs.sub_force] at hforce ⊢
    omega
  · simp only [Sys.dropHandle, releaseArcs, Mpsc.dropSenders_senders]
    omega
  · intro o ho
    have ho : o ∈ s.ops := ho
    by_cases hl : o.state.live = true
    · refine (hs.kept o ho).mono (fun j hj hjs => ?_) fun _ hp => hp
      obtain ⟨hd', hh', hst⟩ := hjs
      have hji : i ≠ j := by
        rintro rfl
        rw [borrowed, List.any_eq_false] at hb
        exact hb o ho (by simp [hj, hl])
      rw [handle?_eq_some] at hh'
      refine ⟨hd', handle?_eq_some.mpr ⟨?_, hh'.2⟩, hst⟩
      show (s.handles.set i _)[j]? = _
      rw [List.getElem?_set_ne hji]
      exact hh'.1
    · exact fun hl' => absurd hl' hl

theorem Counted.addOp {s : Sys A} (hs : s.Counted) {o : Op A} (hk : o.Kept s)
    (ht : 0 < o.arcs.tx → 0 < s.arcs.tx) (hf : 0 < o.arcs.force → 0 < s.arcs.force) :
    (s.addOp o).Counted where
  tx := by
    have := hs.tx
    simp only [Sys.addOp, heldTx, Arcs.add_tx, List.map_append, List.map_cons, List.map_nil,
      List.sum_append, List.sum_cons, List.sum_nil] at this ⊢
    omega
  force := by
    have := hs.force
    simp only [Sys.addOp, heldForce, Arcs.add_force, List.map_append, List.map_cons, List.map_nil,
      List.sum_append, List.sum_cons, List.sum_nil] at this ⊢
    omega
  senders := by
    have := hs.senders
    simp only [Sys.addOp, Mpsc.cloneSenders_senders, Arcs.closures_add ht hf, List.map_append,
      List.map_cons, List.map_nil, List.sum_append, List.sum_cons, List.sum_nil]
    omega
  kept := by
    intro o' ho'
    rcases List.mem_append.mp ho' with ho' | ho'
    · exact (hs.kept o' ho').congr rfl rfl
    · rw [List.mem_singleton.mp ho']
      exact hk.congr rfl rfl

/-- An operation that moves on holds no more than before. -/
theorem Counted.setOp {s : Sys A} (hs : s.Counted) {i : ℕ} {o : Op A} {st : OpState A}
    (ho : s.ops[i]? = some o) (hk : Op.Kept s { o with state := st })
    (ht : (Op.arcs { o with state := st }).tx ≤ o.arcs.tx)
    (hf : (Op.arcs { o with state := st }).force ≤ o.arcs.force)
    (hc : Op.clones { o with state := st } ≤ o.clones) : (s.setOp i o st).Counted := by
  have h1 := Table.sum_map_set (f := fun o : Op A => o.arcs.tx) (b := { o with state := st }) ho
  have h2 := Table.sum_map_set (f := fun o : Op A => o.arcs.force) (b := { o with state := st }) ho
  have h3 := Table.sum_map_set (f := Op.clones) (b := { o with state := st }) ho
  have hmem := List.mem_of_getElem? ho
  have h4 := Table.le_sum_map (f := fun o : Op A => o.arcs.tx) hmem
  have h5 := Table.le_sum_map (f := fun o : Op A => o.arcs.force) hmem
  have h6 := Table.le_sum_map (f := Op.clones) hmem
  have htx := hs.tx
  have hforce := hs.force
  have hsend := hs.senders
  have hcl := Arcs.closures_sub_le s.arcs (o.arcs - Op.arcs { o with state := st })
  refine ⟨?_, ?_, ?_, ?_⟩
  · simp only [Sys.setOp, releaseArcs, heldTx, Arcs.sub_tx] at htx ⊢
    omega
  · simp only [Sys.setOp, releaseArcs, heldForce, Arcs.sub_force] at hforce ⊢
    omega
  · simp only [Sys.setOp, releaseArcs, Mpsc.dropSenders_senders]
    omega
  · intro o' ho'
    rcases Table.mem_set_cases ho' with rfl | ho'
    · exact hk.congr rfl rfl
    · exact (hs.kept o' ho').congr rfl rfl

/-- The counts depend on the tables, the references and the senders only; a step
that leaves the context alone may also change the phase. -/
theorem Counted.congr {s t : Sys A} (hs : s.Counted) (ha : t.arcs = s.arcs)
    (hh : t.handles = s.handles) (ho : t.ops = s.ops) (hc : t.chan.senders = s.chan.senders)
    (hp : t.phase = s.phase ∨ s.contextBusy = false) : t.Counted where
  tx := by rw [ha, hs.tx, heldTx, heldTx, hh, ho]
  force := by rw [ha, hs.force, heldForce, heldForce, hh, ho]
  senders := by rw [hc, ha, ho, hs.senders]
  kept := by
    intro o hmem
    rw [ho] at hmem
    rcases hp with hp | hb
    · exact (hs.kept o hmem).congr hh hp
    · by_cases hl : o.state.live = true
      · refine (hs.kept o hmem).mono (fun i _ hi => by simpa only [handle?, hh] using hi)
          fun hx => ?_
        rw [contextBusy, List.any_eq_false] at hb
        exact absurd (by simp [hx, hl]) (hb o hmem)
      · exact fun hl' => absurd hl' hl

theorem Counted.record {s : Sys A} (hs : s.Counted) (es : List (Event A)) :
    (s.record es).Counted := hs.congr rfl rfl rfl rfl (.inl rfl)

/-- An operation in progress goes on; a `Sender::send` future does so only while
its payload is not flushed. -/
theorem Counted.moveOp {s : Sys A} (hs : s.Counted) {i : ℕ} {o : Op A} {st : OpState A}
    (ho : s.ops[i]? = some o) (hl : o.state.live = true)
    (hst : st.sending = true → o.state.sending = true)
    (hd : st.live = true → o.method.awaited = true → o.method.responds = false →
      st.sending = true) : (s.setOp i o st).Counted := by
  have hk := hs.kept o (List.mem_of_getElem? ho) hl
  refine hs.setOp ho (fun hl' => ?_) ?_ ?_ ?_
  · cases ha : o.access with
    | borrowed h => simpa only [ha] using hk
    | owned k => simpa only [ha] using hk
    | detached =>
      simp only [ha] at hk ⊢
      exact ⟨hk.1, hk.2.1, hd hl' hk.1 hk.2.1⟩
    | context => simpa only [ha] using hk
  · simp only [Op.arcs, hl, if_true]
    split <;> simp
  · simp only [Op.arcs, hl, if_true]
    split <;> simp
  · simp only [Op.clones]
    cases hs' : st.sending with
    | false => simp
    | true => simp [hst hs']

/-! ### Preservation -/

theorem counted_init (E : Environment A) (a : A.State) (c : A.Ctx) : (E.init a c).Counted where
  tx := rfl
  force := rfl
  senders := rfl
  kept := by
    intro o ho
    cases ho

theorem Counted.handleStep {s t : Sys A} (hs : s.Counted) {l : HandleLabel}
    (h : s.handleStep l = some t) : t.Counted := by
  obtain ⟨i, hd, k, hh, hk, rfl⟩ | ⟨w, k, b, hk, rfl⟩ | ⟨k, b, hk, -, rfl⟩ | ⟨i, hd, hh, hb, rfl⟩ :=
    handleStep_cases h
  · have hle := hs.handle_le hh
    have hcap := HandleKind.derives_captures hk
    exact hs.addHandle (by omega) (by omega)
  · obtain ⟨-, ht, hf⟩ := Arcs.upgrade_some hk
    exact hs.addHandle ht hf
  · exact hs.addHandle (by simp [hk]) (by simp [hk])
  · exact hs.dropHandle hh hb

/-- An operation that a strong handle or an upgrade started. -/
theorem Counted.beginOp {s : Sys A} (hs : s.Counted) {m : Method A} {x : Access}
    (hk : Op.Kept s ⟨m, x, .begun⟩) (ht : 0 < s.arcs.tx)
    (hf : 0 < x.arcs.force → 0 < s.arcs.force) : (s.beginOp m x).Counted := by
  refine (hs.addOp hk (fun _ => ht) fun h => hf ?_).record _
  have hm : m.arcs.force = 0 := by cases m <;> rfl
  simpa [Op.arcs, OpState.live, hm] using h

theorem Counted.opStep {s t : Sys A} {es : List (Event A)} (hs : s.Counted)
    (h : s.OpStep t es) : t.Counted := by
  cases h with
  | begin m i hd hh ho hst =>
    have hle := hs.handle_le hh
    have hcap := HandleKind.strong_iff_captures_tx.mp hst
    refine hs.beginOp ?_ (by omega) ?_
    · intro _
      cases hk : hd.kind <;> cases m <;>
        simp_all [HandleKind.access, HandleKind.offers, HandleKind.strong, Method.awaited,
          Method.responds, OpState.sending]
    · cases hk : hd.kind <;> cases m <;> simp [HandleKind.access, Access.arcs]
  | upgraded m w k hu ho =>
    obtain ⟨hst, ht, hf⟩ := Arcs.upgrade_some hu
    have hcap := HandleKind.strong_iff_captures_tx.mp hst
    exact hs.beginOp (fun _ => hst) (ht (by omega)) hf
  | context m hp hm hb hf =>
    have hm0 : m.arcs = 0 := by cases m <;> first | rfl | cases hm
    have hk : Op.Kept s ⟨m, .context, .begun⟩ := fun _ => ⟨hm, hp⟩
    refine (hs.addOp hk (fun h => ?_) fun _ => hf).record _
    simp [Op.arcs, OpState.live, Access.arcs, hm0] at h
  | refused m =>
    refine (hs.addOp (fun h => ?_) (fun h => ?_) fun h => ?_).record _ <;>
      simp [OpState.live, Op.arcs] at h
  | push i o d ho hst hc =>
    have hsc : d.senders = s.chan.senders := (Mpsc.push_eq_some hc).2.2.1
    have hs' : ({ s with chan := d } : Sys A).Counted := hs.congr rfl rfl rfl hsc (.inl rfl)
    refine (hs'.moveOp ho (by simp [hst, OpState.live]) (fun _ => by simp [hst, OpState.sending])
      fun _ => ?_).record _
    cases o.method <;> simp [Method.awaited, Method.responds, Method.afterPush, OpState.sending]
  | move i o st ho hm =>
    refine Counted.record ?_ _
    cases hm with
    | refused hst hr =>
      exact hs.moveOp ho (by simp [hst, OpState.live]) (fun h => by cases h) fun h => by cases h
    | flushed hst hp =>
      have hl : o.state.live = true := by simp [hst, OpState.live]
      refine hs.moveOp ho hl (fun _ => by simp [hst, OpState.sending]) fun h _ hr => ?_
      simp [Method.afterFlush, hr, OpState.live] at h
    | answered r hst ha =>
      exact hs.moveOp ho (by simp [hst, OpState.live]) (fun h => by cases h) fun h => by cases h
    | canceled hst ha =>
      exact hs.moveOp ho (by simp [hst, OpState.live]) (fun h => by cases h) fun h => by cases h
    | dropped hf =>
      have hl : o.state.live = true := by simp_all [Op.pendingFuture]
      exact hs.moveOp ho hl (fun h => by cases h) fun h => by cases h

theorem Counted.watchStep {s t : Sys A} {es : List (Event A)} (hs : s.Counted)
    (h : s.WatchStep t es) : t.Counted := by
  cases h with
  | await i hd r hh hk hsp hr =>
    have hget := (handle?_eq_some.mp hh).1
    have ht := Table.sum_map_set (f := fun hd : Handle => hd.arcs.tx)
      (b := { hd with spent := true }) hget
    have hf := Table.sum_map_set (f := fun hd : Handle => hd.arcs.force)
      (b := { hd with spent := true }) hget
    have heq : Handle.arcs { hd with spent := true } = hd.arcs := rfl
    rw [heq] at ht hf
    have htx := hs.tx
    have hforce := hs.force
    refine Counted.record (s := { s with
      running := s.running.complete r
      handles := s.handles.set i { hd with spent := true } }) ⟨?_, ?_, hs.senders, ?_⟩ _
    · simp only [heldTx] at htx ⊢
      omega
    · simp only [heldForce] at hforce ⊢
      omega
    · intro o ho
      refine (hs.kept o ho).mono (fun j _ hj => ?_) fun _ hp => hp
      obtain ⟨hd', hh', hst⟩ := hj
      by_cases hij : i = j
      · subst hij
        rw [hh, Option.some_inj] at hh'
        subst hh'
        refine ⟨{ hd with spent := true }, handle?_eq_some.mpr ⟨?_, (handle?_eq_some.mp hh).2⟩, hst⟩
        rw [List.getElem?_set_self (List.getElem?_eq_some_iff.mp hget).1]
      · rw [handle?_eq_some] at hh'
        refine ⟨hd', handle?_eq_some.mpr ⟨?_, hh'.2⟩, hst⟩
        rw [List.getElem?_set_ne hij]
        exact hh'.1
  | _ => exact hs.congr rfl rfl rfl rfl (.inl rfl)

theorem Counted.step {E : Environment A} {s t : Sys A} {es : List (Event A)} (hs : s.Counted)
    (h : E.Step s t es) : t.Counted := by
  cases h with
  | handle l h => exact hs.handleStep h
  | op es h => exact hs.opStep h
  | loop es hb h =>
    have hu := h.untouched
    exact hs.congr hu.arcs hu.handles hu.ops hu.senders (.inr hb)
  | watch es h => exact hs.watchStep h

end Sys

theorem Environment.Reachable.counted {E : Environment A} {a : A.State} {c : A.Ctx} {s : Sys A}
    (h : E.Reachable a c s) : s.Counted :=
  reachable_induction (Sys.counted_init E a c) (fun _ _ _ _ _ hs hst => hs.step hst) h

/-! ### What keeps the transmitters alive -/

namespace Sys

/-- A transmitter whose last strong reference is gone does not come back. -/
theorem Counted.revives {E : Environment A} {s t : Sys A} {es : List (Event A)} (hs : s.Counted)
    (h : E.Step s t es) :
    (0 < t.arcs.tx → 0 < s.arcs.tx) ∧ (0 < t.arcs.force → 0 < s.arcs.force) := by
  -- references are made from existing ones, or dropped
  have hadd : ∀ a : Arcs, (0 < a.tx → 0 < s.arcs.tx) → (0 < a.force → 0 < s.arcs.force) →
      t.arcs = s.arcs + a →
        (0 < t.arcs.tx → 0 < s.arcs.tx) ∧ (0 < t.arcs.force → 0 < s.arcs.force) := by
    intro a hat haf ht
    rw [ht, Arcs.add_tx, Arcs.add_force]
    exact ⟨fun h => by omega, fun h => by omega⟩
  have hsub : ∀ a : Arcs, t.arcs = s.arcs - a →
      (0 < t.arcs.tx → 0 < s.arcs.tx) ∧ (0 < t.arcs.force → 0 < s.arcs.force) := by
    intro a ht
    rw [ht, Arcs.sub_tx, Arcs.sub_force]
    exact ⟨fun h => by omega, fun h => by omega⟩
  cases h with
  | handle l h =>
    obtain ⟨i, hd, k, hh, hk, rfl⟩ | ⟨w, k, b, hk, rfl⟩ | ⟨k, b, hk, -, rfl⟩ |
      ⟨i, hd, hh, hb, rfl⟩ := handleStep_cases h
    · have hle := hs.handle_le hh
      have hcap := HandleKind.derives_captures hk
      exact hadd k.captures (by omega) (by omega) rfl
    · obtain ⟨-, ht, hf⟩ := Arcs.upgrade_some hk
      exact hadd k.captures ht hf rfl
    · exact hadd k.captures (by simp [hk]) (by simp [hk]) rfl
    · exact hsub hd.kind.captures rfl
  | op es h =>
    cases h with
    | begin m i hd hh ho hst =>
      have hle := hs.handle_le hh
      have hcap := HandleKind.strong_iff_captures_tx.mp hst
      refine hadd (Op.arcs ⟨m, hd.kind.access i m, .begun⟩) (by omega) (fun h => ?_) rfl
      cases hk : hd.kind <;> cases m <;>
        simp [hk, Op.arcs, OpState.live, HandleKind.access, Access.arcs, Method.arcs] at h
    | upgraded m w k hu ho =>
      obtain ⟨hst, ht, hf⟩ := Arcs.upgrade_some hu
      have hcap := HandleKind.strong_iff_captures_tx.mp hst
      refine hadd (Op.arcs ⟨m, .owned k, .begun⟩) (fun _ => ht (by omega)) (fun h => hf ?_) rfl
      cases m <;> simpa [Op.arcs, OpState.live, Access.arcs, Method.arcs] using h
    | context m hp hm hb hf =>
      have hm0 : m.arcs = 0 := by cases m <;> first | rfl | cases hm
      refine hadd (Op.arcs ⟨m, .context, .begun⟩) (fun h => ?_) (fun _ => hf) rfl
      simp [Op.arcs, OpState.live, Access.arcs, hm0] at h
    | refused m => exact hadd 0 (by simp) (by simp) rfl
    | push i o d ho hst hc => exact hsub _ rfl
    | move i o st ho hm => exact hsub _ rfl
  | loop es hb h => exact hsub 0 h.untouched.arcs
  | watch es h =>
    refine hsub 0 ?_
    cases h <;> rfl

/-- A strong handle exists: one that was made and not dropped, or the one that a
`try_` operation in progress upgraded to. -/
def StrongHandle (s : Sys A) : Prop :=
  (∃ hd ∈ s.handles, hd.alive = true ∧ hd.kind.strong = true) ∨
    ∃ o ∈ s.ops, o.state.live = true ∧ ∃ k, o.access = .owned k

/-- One of them is not a `Caller`. -/
def SendingHandle (s : Sys A) : Prop :=
  (∃ hd ∈ s.handles, hd.alive = true ∧ hd.kind.strong = true ∧ hd.kind ≠ .caller) ∨
    ∃ o ∈ s.ops, o.state.live = true ∧ ∃ k, o.access = .owned k ∧ k ≠ .caller

theorem strongHandle_of_borrowed {s : Sys A} {i : ℕ}
    (h : ∃ hd, s.handle? i = some hd ∧ hd.kind.strong = true) : s.StrongHandle := by
  obtain ⟨hd, hh, hst⟩ := h
  rw [handle?_eq_some] at hh
  exact .inl ⟨hd, List.mem_of_getElem? hh.1, hh.2, hst⟩

theorem Counted.tx_pos {s : Sys A} (hs : s.Counted) : 0 < s.arcs.tx ↔ s.StrongHandle := by
  rw [hs.tx, heldTx, Nat.add_pos_iff_pos_or_pos, Table.sum_map_pos, Table.sum_map_pos]
  constructor
  · rintro (⟨hd, hmem, hpos⟩ | ⟨o, hmem, hpos⟩)
    · unfold Handle.arcs at hpos
      split at hpos
      · next hal =>
        refine .inl ⟨hd, hmem, hal, ?_⟩
        cases hk : hd.kind <;> simp_all [HandleKind.captures, HandleKind.strong]
      · cases hpos
    · unfold Op.arcs at hpos
      split at hpos
      · next hl =>
        have hk := hs.kept o hmem hl
        cases ha : o.access with
        | borrowed i =>
          rw [ha] at hk
          exact strongHandle_of_borrowed hk
        | owned k => exact .inr ⟨o, hmem, hl, k, ha⟩
        | detached =>
          simp only [ha] at hk hpos
          cases hm : o.method <;>
            simp_all [Method.arcs, Access.arcs, Method.awaited, Method.responds]
        | context =>
          simp only [ha] at hk hpos
          cases hm : o.method <;>
            simp_all [Method.arcs, Access.arcs, Method.isFuture, Method.awaited, Method.responds]
      · cases hpos
  · rintro (⟨hd, hmem, hal, hst⟩ | ⟨o, hmem, hl, k, ha⟩)
    · refine .inl ⟨hd, hmem, ?_⟩
      rw [Handle.arcs, if_pos hal, HandleKind.strong_iff_captures_tx.mp hst]
      exact Nat.zero_lt_one
    · refine .inr ⟨o, hmem, ?_⟩
      have hk := hs.kept o hmem hl
      simp only [ha] at hk
      simp only [Op.arcs, hl, if_true, ha, Access.arcs, Arcs.add_tx,
        HandleKind.strong_iff_captures_tx.mp hk]
      omega

theorem Counted.force_pos {s : Sys A} (hs : s.Counted) :
    0 < s.arcs.force ↔ s.SendingHandle ∨ s.contextBusy = true := by
  have hm : ∀ m : Method A, m.arcs.force = 0 := fun m => by cases m <;> rfl
  have hcap : ∀ k : HandleKind, 0 < k.captures.force ↔ k.strong = true ∧ k ≠ .caller := by
    intro k
    cases k <;> decide
  rw [hs.force, heldForce, Nat.add_pos_iff_pos_or_pos, Table.sum_map_pos, Table.sum_map_pos]
  constructor
  · rintro (⟨hd, hmem, hpos⟩ | ⟨o, hmem, hpos⟩)
    · unfold Handle.arcs at hpos
      split at hpos
      · next hal => exact .inl (.inl ⟨hd, hmem, hal, (hcap _).mp hpos⟩)
      · cases hpos
    · unfold Op.arcs at hpos
      split at hpos
      · next hl =>
        rw [Arcs.add_force, hm, Nat.add_zero] at hpos
        cases ha : o.access with
        | borrowed i =>
          rw [ha] at hpos
          cases hpos
        | owned k =>
          rw [ha] at hpos
          exact .inl (.inr ⟨o, hmem, hl, k, ha, ((hcap k).mp hpos).2⟩)
        | detached =>
          rw [ha] at hpos
          cases hpos
        | context =>
          refine .inr (List.any_eq_true.mpr ⟨o, hmem, ?_⟩)
          simp [ha, hl]
      · cases hpos
  · rintro ((⟨hd, hmem, hal, hst⟩ | ⟨o, hmem, hl, k, ha, hne⟩) | hb)
    · refine .inl ⟨hd, hmem, ?_⟩
      rw [Handle.arcs, if_pos hal]
      exact (hcap _).mpr hst
    · refine .inr ⟨o, hmem, ?_⟩
      have hk := hs.kept o hmem hl
      simp only [ha] at hk
      simp only [Op.arcs, hl, if_true, ha, Access.arcs, Arcs.add_force]
      exact Nat.add_pos_left ((hcap k).mpr ⟨hk, hne⟩) _
    · obtain ⟨o, hmem, ho⟩ := List.any_eq_true.mp hb
      simp only [Bool.and_eq_true, decide_eq_true_eq] at ho
      refine .inr ⟨o, hmem, ?_⟩
      simp only [Op.arcs, ho.2, if_true, ho.1, Access.arcs, Arcs.add_force]
      exact Nat.add_pos_left Nat.zero_lt_one _

theorem SendingHandle.strong {s : Sys A} (h : s.SendingHandle) : s.StrongHandle := by
  obtain ⟨hd, hmem, hal, hst, -⟩ | ⟨o, hmem, hl, k, ha, -⟩ := h
  · exact .inl ⟨hd, hmem, hal, hst⟩
  · exact .inr ⟨o, hmem, hl, k, ha⟩

/-- Without a strong handle a future can only be a `Sender::send`, which has a
sender clone of its own. -/
theorem Counted.clone_of_pending {s : Sys A} (hs : s.Counted) (hn : ¬ s.StrongHandle) {o : Op A}
    (ho : o ∈ s.ops) : o.pendingFuture = true ↔ 0 < o.clones := by
  unfold Op.pendingFuture Op.clones
  constructor
  · rw [Bool.and_eq_true]
    rintro ⟨hf, hl⟩
    have hk := hs.kept o ho hl
    cases ha : o.access with
    | borrowed i =>
      rw [ha] at hk
      exact absurd (strongHandle_of_borrowed hk) hn
    | owned k => exact absurd (.inr ⟨o, ho, hl, k, ha⟩) hn
    | detached =>
      simp only [ha] at hk
      simp [hk.1, hk.2.2]
    | context =>
      simp only [ha] at hk
      rw [hk.1] at hf
      cases hf
  · intro hc
    cases hm : o.method.awaited <;> cases hst : o.state <;>
      simp_all [Method.isFuture, OpState.sending, OpState.live]

/-- The context is in use only at the await points of hooks and handlers. -/
theorem Counted.contextBusy_receiving {s : Sys A} (hs : s.Counted)
    (hp : s.phase.hasContext = false) : s.contextBusy = false := by
  rw [contextBusy, List.any_eq_false]
  intro o ho hb
  simp only [Bool.and_eq_true, decide_eq_true_eq] at hb
  have hk := hs.kept o ho hb.2
  simp only [hb.1, hp, reduceCtorEq, and_false] at hk

theorem Counted.senders_eq_zero {s : Sys A} (hs : s.Counted) (hb : s.contextBusy = false) :
    s.chan.senders = 0 ↔ ¬ s.StrongHandle ∧ ∀ o ∈ s.ops, o.pendingFuture = false := by
  rw [hs.senders, Nat.add_eq_zero_iff, Arcs.closures_eq_zero, Table.sum_map_eq_zero]
  constructor
  · rintro ⟨⟨ht, -⟩, hc⟩
    have hn : ¬ s.StrongHandle := fun h => by
      have := hs.tx_pos.mpr h
      omega
    refine ⟨hn, fun o ho => ?_⟩
    rw [← Bool.not_eq_true, hs.clone_of_pending hn ho, hc o ho]
    exact Nat.lt_irrefl 0
  · rintro ⟨hn, hf⟩
    refine ⟨⟨?_, ?_⟩, fun o ho => ?_⟩
    · rw [← hs.tx_pos] at hn
      omega
    · have hn' : ¬ 0 < s.arcs.force := by
        rw [hs.force_pos, hb]
        rintro (h | h)
        · exact hn h.strong
        · cases h
      omega
    · have := (hs.clone_of_pending hn ho).not.mp (by simp [hf o ho])
      omega

end Sys

/-- **Strong handles keep the mailbox open and weak ones do not.**  Where the
loop polls its mailbox, the stream has ended exactly when no strong handle and
no unfinished future is left and everything accepted was taken; at any time,
with nothing but weak handles left and no operation in progress, no sender of
the channel is left either. -/
theorem stream_ends_iff {E : Environment A} {a : A.State} {c : A.Ctx} {s : Sys A}
    (h : E.Reachable a c s) :
    (s.phase = .receiving →
      (s.chan.pollNext = .ready none ↔ ¬ s.StrongHandle ∧
        (∀ o ∈ s.ops, o.pendingFuture = false) ∧ accepted s.trace = taken s.trace)) ∧
    ((∀ hd ∈ s.handles, hd.alive = true → hd.kind.strong = false) →
      (∀ o ∈ s.ops, o.state.live = false) → s.chan.senders = 0) := by
  have hs := h.counted
  constructor
  · intro hp
    have hb := hs.contextBusy_receiving (by rw [hp]; rfl)
    have hq := h.queued (by rw [hp]; rfl)
    rw [Mpsc.pollNext_eq_none, hs.senders_eq_zero hb, hq, List.append_right_eq_self]
    tauto
  · intro hw hl
    have hb : s.contextBusy = false := by
      rw [Sys.contextBusy, List.any_eq_false]
      intro o ho
      simp [hl o ho]
    refine (hs.senders_eq_zero hb).mpr ⟨?_, fun o ho => by simp [Op.pendingFuture, hl o ho]⟩
    rintro (⟨hd, hmem, hal, hst⟩ | ⟨o, hmem, hlive, -⟩)
    · rw [hw hd hmem hal] at hst
      cases hst
    · rw [hl o hmem] at hlive
      cases hlive

/-- The last strong handle is dropped while the loop waits: the stream ends. -/
theorem stream_ends_after_drop :
    ∃ s, Tally.plain.system.run (Tally.spawn Tally.plain)
        [.loop (.hook true), .handle (.derive 0 .weakAddr), .handle (.drop 0)] = some s ∧
      s.chan.pollNext = .ready none := by
  refine ⟨_, rfl, ((stream_ends_iff (Tally.reachable (E := Tally.plain)
    [.loop (.hook true), .handle (.derive 0 .weakAddr), .handle (.drop 0)] rfl)).1 rfl).mpr
      ⟨?_, ?_, rfl⟩⟩
  · rintro (⟨hd, hmem, hal, hst⟩ | ⟨o, hmem, -⟩)
    · rcases List.mem_cons.mp hmem with rfl | hmem
      · cases hal
      · rw [List.mem_singleton.mp hmem] at hst
        cases hst
    · cases hmem
  · intro o hmem
    cases hmem

/-! ### Whether the weak handles agree -/

namespace Sys

/-- Every weak handle upgrades exactly while a strong handle exists, and the
context does not report the actor as stopped while one does. -/
def WeakAgree (s : Sys A) : Prop :=
  (∀ w : HandleKind, w.strong = false → ((s.arcs.upgrade w).isSome = true ↔ s.StrongHandle)) ∧
    (s.StrongHandle → s.contextUpgrades = true ∧ (s.contextHandle .addr).isSome = true)

theorem weakAgree_iff_force {s : Sys A} (hs : s.Counted) :
    s.WeakAgree ↔ (s.StrongHandle → 0 < s.arcs.force) := by
  have ht := hs.tx_pos
  constructor
  · intro h hst
    simpa [contextUpgrades] using (h.2 hst).1
  · intro hf
    have hboth : 0 < s.arcs.tx ∧ 0 < s.arcs.force ↔ s.StrongHandle :=
      ⟨fun h => ht.mp h.1, fun h => ⟨ht.mpr h, hf h⟩⟩
    refine ⟨fun w hw => ?_, fun hst => ⟨?_, ?_⟩⟩
    · cases w with
      | weakAddr | weakSender => simpa [Arcs.upgrade] using hboth
      | weakCaller => simpa [Arcs.upgrade] using ht
      | addr | owningAddr | sender | caller => cases hw
    · simpa [contextUpgrades] using hf hst
    · simp [contextHandle, Arcs.upgrade, hboth.mpr hst]

end Sys

/-- **The weak handles agree exactly when not only `Caller`s are left.**
`Caller::new` captures `payload_tx` and not `payload_force_tx`, which the
upgrades of `WeakAddr` and `WeakSender` and the context ask for as well; a call
of `Context::stop` in progress holds that one for itself. -/
theorem weak_handles_agree_iff {E : Environment A} {a : A.State} {c : A.Ctx} {s : Sys A}
    (h : E.Reachable a c s) :
    s.WeakAgree ↔ (s.StrongHandle → s.SendingHandle ∨ s.contextBusy = true) := by
  rw [Sys.weakAgree_iff_force h.counted, h.counted.force_pos]

/-- With the `Sender` that is left of the first handle, they agree. -/
theorem sender_alone_agrees :
    ∃ s, Tally.plain.system.run (Tally.spawn Tally.plain)
        [.handle (.derive 0 .sender), .handle (.drop 0)] = some s ∧ s.WeakAgree := by
  refine ⟨_, rfl, (weak_handles_agree_iff (Tally.reachable (E := Tally.plain)
    [.handle (.derive 0 .sender), .handle (.drop 0)] rfl)).mpr fun _ => .inl (.inl ?_)⟩
  exact ⟨⟨.sender, true, false⟩, List.mem_cons_of_mem _ (List.mem_singleton.mpr rfl), rfl, rfl,
    by decide⟩

/-- A `Caller` that outlives the `OwningAddr` it was made from: `started` runs,
the `Caller` exists and `WeakCaller` upgrades, but `WeakAddr`, `WeakSender` and
the context take the actor for stopped. -/
theorem caller_alone_disagrees :
    ∃ s, Tally.plain.system.run (Tally.spawn Tally.plain)
        [.handle (.derive 0 .caller), .handle (.drop 0)] = some s ∧
      s.phase.hasContext = true ∧ s.StrongHandle ∧
      s.arcs.upgrade .weakCaller = some .caller ∧ s.arcs.upgrade .weakAddr = none ∧
      s.arcs.upgrade .weakSender = none ∧ s.contextUpgrades = false ∧
      (s.contextHandle .addr).isSome = false ∧ ¬ s.WeakAgree := by
  refine ⟨_, rfl, rfl, .inl ⟨⟨.caller, true, false⟩, ?_, rfl, rfl⟩, rfl, rfl, rfl, rfl, rfl,
    fun h => ?_⟩
  · exact List.mem_cons_of_mem _ (List.mem_singleton.mpr rfl)
  · have := (h.1 .weakCaller rfl).mp rfl
    exact absurd ((h.1 .weakAddr rfl).mpr this) (by decide)

end Hannibal
