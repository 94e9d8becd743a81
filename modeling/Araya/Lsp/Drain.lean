import Araya.Lsp.Wire
import Araya.Util.Lists
import Araya.Util.Machine
import Mathlib.Data.List.Nodup

/-!
The drain serves the queue in order. An item that has left the queue was signalled once; one that has
not is waited for, and somebody has to be left to write it.
-/

namespace Araya.Lsp

universe u

namespace Wire
variable {μ : Type u}

/-- The items whose write is not over, the one in the pipe first. -/
def unsent (w : Wire μ) : List Nat :=
  match w.drain with
  | .writing k => k :: w.writes
  | _ => w.writes

/-- No writer is stranded. -/
structure Drained (w : Wire μ) : Prop where
  served : w.writing = false → w.writes = []
  signalled : ∀ (k : Nat) (item : WriteItem μ), w.items[k]? = some item → k ∉ w.unsent →
    ∃ failure, item.done = [failure] ∧ (failure = none → k ∈ w.written)
  awaited : ∀ (k : Nat) (item : WriteItem μ), w.items[k]? = some item → item.done = [] → w.drain ≠ .idle

/-- No write fails while further items wait in the queue. -/
def Alone (w : Wire μ) : WireOp μ → Prop
  | .drain (some _) => ∀ k, w.drain = .writing k → w.writes = []
  | _ => True

end Wire

def wires (μ : Type u) : System (Wire μ) (WireOp μ) where
  start w := w = {}
  step w op w' := w.next op = some w'

namespace Wire
variable {μ : Type u} {w w' : Wire μ}

/-! The invariant -/

/-- What the queue and the channels are in any run. -/
structure Tracked (w : Wire μ) : Prop where
  running : w.writing = true ↔ w.drain ≠ .idle
  apart : w.unsent.Nodup
  open_ : ∀ k ∈ w.unsent, ∃ item, w.items[k]? = some item ∧ item.done = []
  closed : ∀ (k : Nat) (item : WriteItem μ), w.items[k]? = some item → k ∉ w.unsent →
    ∃ failure, item.done = [failure] ∧ (failure = none → k ∈ w.written)
  order : w.failed = false → w.written ++ w.unsent = List.range w.items.length
  clean : w.failed = false → ∀ item ∈ w.items, ∀ failure ∈ item.done, failure = none

theorem Tracked.start : Tracked ({} : Wire μ) where
  running := ⟨fun h => (by cases h), fun h => absurd rfl h⟩
  apart := List.nodup_nil
  open_ k member := by cases member
  closed k item found := by cases found
  order _ := rfl
  clean _ item member := by cases member

theorem Tracked.bound (h : Tracked w) {k : Nat} (member : k ∈ w.unsent) : k < w.items.length := by
  obtain ⟨item, found, -⟩ := h.open_ k member
  exact (List.getElem?_eq_some_iff.mp found).1

/-- The items whose write is not over and the channels are what the invariant is about. -/
theorem Tracked.alike (h : Tracked w) (unsent : w'.unsent = w.unsent) (items : w'.items = w.items)
    (written : w'.written = w.written) (running : w'.writing = true ↔ w'.drain ≠ .idle)
    (failed : w'.failed = false → w.failed = false) : Tracked w' := by
  constructor
  case running => exact running
  case apart => rw [unsent]; exact h.apart
  case open_ => rw [unsent, items]; exact h.open_
  case closed => rw [unsent, items, written]; exact h.closed
  case order =>
      intro live
      rw [written, unsent, items]
      exact h.order (failed live)
  case clean =>
      intro live
      rw [items]
      exact h.clean (failed live)

/-! The operations -/

theorem enqueue_cases (frame : μ) : (w.enqueue frame).items = w.items ++ [{ frame := frame }] ∧
    (w.enqueue frame).writes = w.writes ++ [w.items.length] ∧ (w.enqueue frame).written = w.written ∧
    (w.enqueue frame).toLspConnection = w.toLspConnection ∧ (w.enqueue frame).writing = true ∧
    (w.enqueue frame).drain = if w.writing then w.drain else .spawned := by
  unfold enqueue
  cases busy : w.writing with
  | true | false => exact ⟨rfl, rfl, rfl, rfl, rfl, rfl⟩

theorem Tracked.unsent_enqueue (h : Tracked w) (frame : μ) :
    (w.enqueue frame).unsent = w.unsent ++ [w.items.length] := by
  obtain ⟨-, writes, -, -, -, drain⟩ := enqueue_cases (w := w) frame
  unfold unsent
  rw [writes, drain]
  cases busy : w.writing with
  | true =>
      rw [if_pos rfl]
      split <;> rfl
  | false =>
      have idle : w.drain = .idle := by
        by_contra running
        exact Bool.false_ne_true (busy.symm.trans (h.running.mpr running))
      rw [if_neg Bool.false_ne_true, idle]

theorem Tracked.enqueue (h : Tracked w) (frame : μ) : Tracked (w.enqueue frame) := by
  obtain ⟨items, -, written, connection, writing, drain⟩ := enqueue_cases (w := w) frame
  have fresh : w.items.length ∉ w.unsent := fun member => Nat.lt_irrefl _ (h.bound member)
  constructor
  case running =>
      rw [writing, drain]
      cases busy : w.writing with
      | true => exact ⟨fun _ => h.running.mp busy, fun _ => rfl⟩
      | false => exact ⟨fun _ idle => (by cases idle), fun _ => rfl⟩
  case apart =>
      rw [h.unsent_enqueue]
      exact List.nodup_append.mpr ⟨h.apart, List.nodup_singleton _, fun a ha b hb same =>
        fresh (List.mem_singleton.mp hb ▸ same ▸ ha)⟩
  case open_ =>
      intro k member
      rw [h.unsent_enqueue] at member
      rw [items]
      rcases List.mem_append.mp member with old | last
      · obtain ⟨item, found, silent⟩ := h.open_ k old
        exact ⟨item, List.getElem?_append_left (h.bound old) ▸ found, silent⟩
      · cases List.mem_singleton.mp last
        exact ⟨{ frame := frame }, List.getElem?_concat_length, rfl⟩
  case closed =>
      intro k item found gone
      rw [h.unsent_enqueue, List.mem_append, not_or, List.mem_singleton] at gone
      rw [items] at found
      rw [written]
      rcases getElem?_concat found with old | ⟨last, -⟩
      · exact h.closed k item old gone.1
      · exact absurd last gone.2
  case order =>
      intro live
      have live' : w.failed = false := by rw [← live, connection]
      rw [written, h.unsent_enqueue, items, List.length_append, List.length_singleton, List.range_succ,
        ← List.append_assoc, h.order live']
  case clean =>
      intro live item member failure sent
      have live' : w.failed = false := by rw [← live, connection]
      rw [items] at member
      rcases List.mem_append.mp member with old | last
      · exact h.clean live' item old failure sent
      · cases List.mem_singleton.mp last
        cases sent

theorem Tracked.drainNext (h : Tracked w) (spawned : w.drain = .spawned) : Tracked w.drainNext := by
  have waiting : w.unsent = w.writes := by
    unfold unsent
    rw [spawned]
  have busy : w.writing = true := h.running.mpr (by rw [spawned]; exact fun idle => (by cases idle))
  unfold Wire.drainNext
  split
  · next empty =>
      exact h.alike waiting.symm rfl rfl ⟨fun busy => (by cases busy), fun busy => absurd rfl busy⟩ id
  · next k writes pending =>
      exact h.alike (waiting.trans pending).symm rfl rfl ⟨fun _ idle => (by cases idle), fun _ => busy⟩ id

theorem getElem?_signal {k j : Nat} {failure : Option String} {item : WriteItem μ}
    (found : (w.signal k failure).items[j]? = some item) : ∃ item', w.items[j]? = some item' ∧
      (j = k ∧ item.done = item'.done ++ [failure] ∨ j ≠ k ∧ item = item') := by
  obtain ⟨item', before, ⟨here, rfl⟩ | ⟨other, rfl⟩⟩ := getElem?_modify_cases found
  · exact ⟨item', before, .inl ⟨here.symm, rfl⟩⟩
  · exact ⟨item, before, .inr ⟨fun here => other here.symm, rfl⟩⟩

/-- The write of the first item is over and its channel was sent the outcome. -/
theorem Tracked.signalled (h : Tracked w) {k : Nat} {failure : Option String} (writing : w.drain = .writing k)
    (written : failure = none → k ∈ w'.written) (kept : ∀ j ∈ w.written, j ∈ w'.written)
    (same : w'.items = (w.signal k failure).items) (unsent : w'.unsent = w.writes)
    (running : w'.writing = true ↔ w'.drain ≠ .idle)
    (order : w'.failed = false → w.failed = false ∧ w'.written = w.written ++ [k] ∧ failure = none) : Tracked w' := by
  have first : w.unsent = k :: w.writes := by
    unfold Wire.unsent
    rw [writing]
  have apart := h.apart
  rw [first, List.nodup_cons] at apart
  refine ⟨running, unsent ▸ apart.2, fun j member => ?_, fun j item found gone => ?_, fun live => ?_,
    fun live item member outcome sent => ?_⟩
  · rw [unsent] at member
    obtain ⟨item, found, silent⟩ := h.open_ j (first ▸ List.mem_cons_of_mem _ member)
    have other : k ≠ j := fun here => apart.1 (here ▸ member)
    refine ⟨item, ?_, silent⟩
    rw [same]
    exact (List.getElem?_modify_ne _ _ other).trans found
  · rw [unsent] at gone
    rw [same] at found
    obtain ⟨item', before, ⟨rfl, done⟩ | ⟨other, rfl⟩⟩ := getElem?_signal found
    · obtain ⟨item'', before', silent⟩ := h.open_ j (first ▸ List.mem_cons_self)
      cases Option.some.inj (before.symm.trans before')
      rw [silent] at done
      exact ⟨failure, done, written⟩
    · obtain ⟨outcome, done, success⟩ := h.closed j item before (by rw [first, List.mem_cons, not_or]; exact ⟨other, gone⟩)
      exact ⟨outcome, done, fun clean => kept j (success clean)⟩
  · obtain ⟨live', appended, -⟩ := order live
    have before := h.order live'
    rw [first] at before
    rw [appended, unsent, same, List.append_assoc, List.singleton_append, before]
    exact congrArg List.range (List.length_modify ..).symm
  · obtain ⟨live', -, success⟩ := order live
    rw [same] at member
    obtain ⟨j, found⟩ := List.mem_iff_getElem?.mp member
    obtain ⟨item', before, ⟨-, done⟩ | ⟨-, rfl⟩⟩ := getElem?_signal found
    · rw [done] at sent
      rcases List.mem_append.mp sent with old | last
      · exact h.clean live' item' (List.mem_of_getElem? before) outcome old
      · exact (List.mem_singleton.mp last).trans success
    · exact h.clean live' item (List.mem_of_getElem? before) outcome sent

theorem fail_cases (reason : String) : ∃ failure, w.fail reason = { w with failed := true, failure } := by
  unfold fail
  split
  · next failed => exact ⟨w.failure, by rw [← failed]⟩
  · exact ⟨reason, rfl⟩

theorem Tracked.wrote (h : Tracked w) {k : Nat} (writing : w.drain = .writing k) (failure : Option String) :
    Tracked (w.wrote k failure) := by
  have busy : w.writing = true := h.running.mpr (by rw [writing]; exact fun idle => (by cases idle))
  cases failure with
  | none =>
      have head : Tracked { { w with written := w.written ++ [k] }.signal k none with drain := .spawned } :=
        h.signalled writing (fun _ => List.mem_append_right _ List.mem_cons_self)
          (fun _ member => List.mem_append_left _ member) rfl rfl ⟨fun _ idle => (by cases idle), fun _ => busy⟩
          fun live => ⟨live, rfl, rfl⟩
      exact head.drainNext rfl
  | some failure =>
      obtain ⟨reason, failed⟩ := fail_cases (w := w.signal k (some failure)) "lsp-stdio: write to the language server failed"
      have ended : w.wrote k (some failure) = { w.signal k (some failure) with failed := true, failure := reason }.drained :=
        congrArg Wire.drained failed
      rw [ended]
      exact h.signalled writing (fun success => (by cases success)) (fun _ member => member) rfl rfl
        ⟨fun busy => (by cases busy), fun busy => absurd rfl busy⟩ fun live => (by cases live)

theorem Tracked.next (h : Tracked w) {op : WireOp μ} (step : w.next op = some w') : Tracked w' := by
  cases op with
  | write frame =>
      cases step
      exact h.enqueue frame
  | drain failure =>
      simp only [Wire.next, drains] at step
      split at step
      · cases step
      · next spawned =>
          cases step
          exact h.drainNext spawned
      · next k writing =>
          cases step
          exact h.wrote writing failure
  | fail reason =>
      cases step
      obtain ⟨failure, failed⟩ := fail_cases (w := w) reason
      rw [failed]
      exact h.alike rfl rfl rfl h.running fun live => (by cases live)
  | close =>
      cases step
      have same : w.close.failed = w.failed := by
        unfold close LspConnection.close
        split <;> rfl
      exact h.alike rfl rfl rfl h.running fun live => same ▸ live

/-! The queue has a drain -/

theorem enqueue_served (frame : μ) : (w.enqueue frame).writing = false → (w.enqueue frame).writes = [] := by
  obtain ⟨-, -, -, -, writing, -⟩ := enqueue_cases (w := w) frame
  intro quiet
  exact absurd (quiet.symm.trans writing) Bool.false_ne_true

theorem drainNext_served (busy : w.writing = true) : w.drainNext.writing = false → w.drainNext.writes = [] := by
  unfold Wire.drainNext
  split
  · next empty => exact fun _ => empty
  · exact fun quiet => absurd (quiet.symm.trans busy) Bool.false_ne_true

theorem served_next (h : Tracked w) (served : w.writing = false → w.writes = []) {op : WireOp μ} (alone : w.Alone op)
    (step : w.next op = some w') : w'.writing = false → w'.writes = [] := by
  cases op with
  | write frame =>
      cases step
      exact enqueue_served frame
  | drain failure =>
      simp only [Wire.next, drains] at step
      split at step
      · cases step
      · next spawned =>
          cases step
          exact drainNext_served (h.running.mpr (by rw [spawned]; exact fun idle => (by cases idle)))
      · next k writing =>
          cases step
          cases failure with
          | none => exact drainNext_served (h.running.mpr (by rw [writing]; exact fun idle => (by cases idle)))
          | some failure =>
              obtain ⟨reason, failed⟩ := fail_cases (w := w.signal k (some failure)) "lsp-stdio: write to the language server failed"
              have ended : (w.wrote k (some failure)).writes = w.writes := by
                show ((w.signal k (some failure)).fail _).writes = w.writes
                rw [failed]
                rfl
              exact fun _ => ended.trans (alone k writing)
  | fail reason =>
      cases step
      obtain ⟨failure, failed⟩ := fail_cases (w := w) reason
      rw [failed]
      exact served
  | close =>
      cases step
      exact served

theorem Tracked.drained (h : Tracked w) (served : w.writing = false → w.writes = []) : Drained w where
  served := served
  signalled := h.closed
  awaited k item found silent idle := by
    have quiet : w.writing = false := by
      by_contra busy
      exact h.running.mp (Bool.not_eq_false _ ▸ busy) idle
    have none : w.unsent = [] := by
      unfold unsent
      rw [idle]
      exact served quiet
    obtain ⟨failure, done, -⟩ := h.closed k item found (none ▸ List.not_mem_nil)
    rw [silent] at done
    cases done

end Wire

/-- While no write fails over a queue that is not empty, every queued item has a drain and every item
that left was signalled once. -/
theorem writers_served {μ : Type u} {w : Wire μ} (h : (wires μ).Reached Wire.Alone w) : w.Drained := by
  have kept : w.Tracked ∧ (w.writing = false → w.writes = []) := by
    refine h.invariant (I := fun w => w.Tracked ∧ (w.writing = false → w.writes = [])) ?_
      fun w op w' _ kept step alone => ⟨kept.1.next step, Wire.served_next kept.1 kept.2 alone step⟩
    rintro w rfl
    exact ⟨.start, fun _ => rfl⟩
  exact kept.1.drained kept.2

/-- The condition as a check. -/
def Wire.alone? {μ : Type u} (w : Wire μ) : WireOp μ → Bool
  | .drain (some _) => w.writes.isEmpty
  | _ => true

theorem Wire.alone_of_check {μ : Type u} {w : Wire μ} {op : WireOp μ} (h : w.alone? op = true) : w.Alone op := by
  cases op with
  | drain failure =>
      cases failure with
      | none => trivial
      | some failure => exact fun _ _ => List.isEmpty_iff.mp h
  | _ => trivial

/-- Two frames are written, the pipe breaks under a third, and a fourth is queued afterwards. -/
theorem writers_served_broken : ∃ w : Wire Nat, w.failed = true ∧ w.items.length = 4 ∧ w.Drained := by
  have played : (System.follow Wire.next Wire.alone? ({} : Wire Nat)
      [.write 1, .drain none, .write 2, .drain none, .write 3, .drain none, .drain (some "EPIPE"), .write 4, .drain none]).any
      (fun w => w.failed && w.items.length == 4) = true := by decide +kernel
  obtain ⟨w, hw, shown⟩ := (Option.any_eq_true _ _).mp played
  have reached := System.follow_reached (S := wires Nat) (P := Wire.Alone) (fun _ _ _ h => h)
    (fun _ _ => Wire.alone_of_check) hw (.start rfl)
  simp only [Bool.and_eq_true, beq_iff_eq] at shown
  exact ⟨w, shown.1, shown.2, writers_served reached⟩

/-- The pipe breaks under the first frame while the second waits: nobody writes it. -/
theorem writer_stranded : ¬ ∀ w : Wire Nat, (wires Nat).Reached (fun _ _ => True) w → w.Drained := by
  intro served
  have played : (System.follow Wire.next (fun _ _ => true) ({} : Wire Nat)
      [.write 1, .write 2, .drain none, .drain (some "EPIPE")]).any
      (fun w => !w.writing && w.writes == [1]) = true := by decide +kernel
  obtain ⟨w, hw, shown⟩ := (Option.any_eq_true _ _).mp played
  have reached := System.follow_reached (S := wires Nat) (P := fun _ _ => True) (fun _ _ _ h => h)
    (fun _ _ _ => trivial) hw (.start rfl)
  simp only [Bool.and_eq_true, Bool.not_eq_true', beq_iff_eq] at shown
  have empty := (served w reached).served shown.1
  rw [shown.2] at empty
  cases empty

end Araya.Lsp
