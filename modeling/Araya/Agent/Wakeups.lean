import Araya.Agent.Drives

/-!
No lost wake-up. A message that `followup` or `steer` queues has a drive that will
look at the queues again, as long as the call comes before the drive's last look
and nobody stops the drive while the message waits.
-/

namespace Araya.Agent

/-- The drive looks at the queues again, or it raises. -/
def Phase.Awake : Phase → Prop
  | .finished none | .resuming | .gone => False
  | _ => True

instance : (p : Phase) → Decidable p.Awake
  | .finished none | .resuming | .gone => .isFalse id
  | .finished (some _) => .isTrue trivial
  | .posted | .top | .opening | .unwinding _ _ | .failing _ _ | .closed | .looping _ | .claimingStep _
  | .claimingTurn _ _ | .proposing _ _ | .deciding _ _ | .decided _ _ _ | .starting _ _
  | .prompting _ _ | .admitting _ _ | .requesting _ | .streaming _ | .retrying _ _ | .committing _ _
  | .calling _ _ _ | .called _ _ _ _ | .invoking _ _ _ _ | .answering _ _ _ _ _ | .stepped _ _
  | .checking _ | .stopping _ | .rechecking _ | .closing _ => .isTrue trivial

theorem Phase.Awake.appending {d : Drive} (h : d.phase.Awake) : d.Appending := by
  intro hs
  cases hp : d.phase <;> rw [hp] at h hs <;> first | exact hs | exact h

section
variable {success : Bool} {log : Log} {a : AgentState} {p : Phase} {o : Outcome} {m : Move}

theorem moved_stop (h : Moved success log a p o m) : m.agent.stop = a.stop := by
  cases h with
  | ends t acc status a' _ ha => rw [ha]; split <;> rfl
  | _ => rfl

/-- A drive stays awake unless it was stopped, found nothing pending or had raised. -/
theorem moved_awake (h : Moved success log a p o m) (awake : p.Awake) : m.phase.Awake ∨ a.stop = true ∨
    (inboxOf log).hasPending = false ∨ ∃ what, p = .finished (some what) := by
  cases h with
  | halts hs => exact .inr (.inl hs)
  | drains hs => exact .inr (hs.imp_right .inl)
  | finishes what _ =>
      cases what with
      | none => exact awake.elim
      | some what => exact .inr (.inr (.inr ⟨what, rfl⟩))
  | resumes => exact awake.elim
  | claimsStep t m hm =>
      refine .inl ?_
      simp only
      split <;> trivial
  | _ => exact .inl trivial

end

namespace World

/-- The registered driver has a drive that will look again and was not stopped. -/
def Attended (w : World) : Prop := ∃ i a, w.current = some i ∧ w.agents[i]? = some a ∧ a.stop = false ∧
  ∃ d ∈ w.drives, d.agent = i ∧ d.phase.Awake

/-- `status`: no driver, or one without a drive. -/
def Idle (w : World) : Prop := ∀ i, w.current = some i → ∀ a, w.agents[i]? = some a → a.running = false

/-- A call that queues a message and wakes is made before the last look of a drive
that was not stopped, or starts a drive whose caller has not stopped it yet. -/
def Heeded (w : World) (i : Nat) (options : DriveOptions) : Prop := ∀ a ∈ w.agents[i]?,
  if a.running then a.stop = false ∧ ∃ d ∈ w.drives, d.agent = i ∧ d.phase.Awake
  else (a.mergeExec options).callerStop.any (· ∈ w.stopped) = false

instance (w : World) (i : Nat) (options : DriveOptions) : Decidable (w.Heeded i options) :=
  inferInstanceAs (Decidable (∀ a ∈ w.agents[i]?, if a.running then a.stop = false ∧ _ else _))

/-- The calls of the interleavings in question: messages come in time, no stop token
stops the drive they wait for, and the driver stays registered. -/
def Wakes (w : World) : Act → Prop
  | .call (.followup _ options refused) | .call (.steer _ options refused) =>
    refused = false → ∀ i ∈ w.current, w.Heeded i options
  | .call (.requestStop token) => w.awaited ≠ [] →
    ∀ i ∈ w.current, ∀ a ∈ w.agents[i]?, a.bridge ≠ some token
  | .call .createFailed | .call .dispose | .call .shutdown => False
  | _ => True

instance (w : World) : (a : Act) → Decidable (w.Wakes a)
  | .call (.followup _ options refused) | .call (.steer _ options refused) =>
    inferInstanceAs (Decidable (refused = false → ∀ i ∈ w.current, w.Heeded i options))
  | .call (.requestStop token) => inferInstanceAs (Decidable (w.awaited ≠ [] →
      ∀ i ∈ w.current, ∀ a ∈ w.agents[i]?, a.bridge ≠ some token))
  | .call .createFailed | .call .dispose | .call .shutdown => .isFalse id
  | .call .create | .call (.run _ _ _) | .call (.inject _ _) | .call (.cancel _ _) | .call (.append _)
  | .advance _ _ => .isTrue trivial

/-- What was queued since the last cancel and not claimed is pending, and attended to. -/
structure Tended (w : World) : Prop where
  owned : w.Owned
  registered : w.current = none → w.drives = []
  pending : ∀ x ∈ w.awaited, x ∈ (inboxOf w.log).ids
  attended : w.raised = false → w.awaited ≠ [] → w.Attended

variable {w w' : World} {i : Nat}

theorem Attended.running (h : w.Attended) (inv : w.Owned) :
    ∃ i a, w.current = some i ∧ w.agents[i]? = some a ∧ a.running = true := by
  obtain ⟨i, a, hi, ha, _, d, hd, hagent, awake⟩ := h
  exact ⟨i, a, hi, ha, inv.busy d hd awake.appending a (by rw [hagent]; exact ha)⟩

/-- A kick leaves a driver that is attended to alone. -/
theorem Attended.kick (h : w.Attended) (inv : w.Owned) : (w.kick i).Attended := by
  rcases w.kick_cases i with hk | ⟨a, ha, hr, hk⟩
  · rw [hk]
    exact h
  · rw [hk]
    obtain ⟨j, b, hj, hb, running⟩ := h.running inv
    obtain ⟨j', b', hj', hb', stop, d, hd, hagent, awake⟩ := h
    rw [hj] at hj'
    cases hj'
    have hne : i ≠ j := by
      rintro rfl
      rw [ha] at hb
      cases hb
      rw [hr] at running
      cases running
    exact ⟨j, b', hj, by simp only [List.getElem?_modify, if_neg hne, hb']; rfl, stop, d,
      List.mem_append_left _ hd, hagent, awake⟩

/-- A kick of an idle driver attends to it, unless its caller has stopped it already. -/
theorem attended_kick {a : AgentState} (hi : w.current = some i) (ha : w.agents[i]? = some a)
    (hr : a.running = false) (stop : a.callerStop.any (· ∈ w.stopped) = false) : (w.kick i).Attended := by
  have hk : w.kick i = { w with
      agents := w.agents.modify i fun a =>
        { a with running := true, stop := a.callerStop.any (· ∈ w.stopped), bridge := a.callerStop }
      drives := w.drives ++ [{ agent := i }] } := by
    unfold World.kick
    rw [ha]
    simp only [hr, Bool.false_eq_true, if_false]
    rfl
  rw [hk]
  refine ⟨i, { a with running := true, stop := a.callerStop.any (· ∈ w.stopped), bridge := a.callerStop }, hi,
    ?_, stop, _, List.mem_append_right _ List.mem_cons_self, rfl, trivial⟩
  simp [ha]

theorem Attended.congr (h : w.Attended) (current : w'.current = w.current) (agents : w'.agents = w.agents)
    (drives : w'.drives = w.drives) : w'.Attended := by
  obtain ⟨i, a, hi, ha, rest⟩ := h
  exact ⟨i, a, current ▸ hi, by rw [agents]; exact ha, by rw [drives]; exact rest⟩

theorem Attended.updateAgent (h : w.Attended) (i : Nat) {f : AgentState → AgentState}
    (hf : ∀ a, (f a).stop = a.stop) : (w.updateAgent i f).Attended := by
  obtain ⟨j, a, hj, ha, stop, rest⟩ := h
  by_cases hij : i = j
  · exact ⟨j, f a, hj, by simp [World.updateAgent, hij, ha], (hf a).trans stop, rest⟩
  · exact ⟨j, a, hj, by simp [World.updateAgent, hij, ha], stop, rest⟩

/-! The calls -/

/-- The message that wakes is pending at last, and those before it still are. -/
theorem awaited_enqueue (w : World) (target : InboxTarget) (message : Json)
    (pending : ∀ x ∈ w.awaited, x ∈ (inboxOf w.log).ids) :
    ∀ x ∈ ((w.await message).enqueue target message).awaited,
      x ∈ (inboxOf ((w.await message).enqueue target message).log).ids := by
  have awaits : (w.await message).log = w.log := by
    simp only [await]
    split <;> rfl
  have entered : ∀ x, x ≠ "" → (x ∈ (inboxOf w.log).ids ∨ inboxMessageId message = x) →
      x ∈ (inboxOf ((w.await message).enqueue target message).log).ids := by
    intro x hx hin
    rw [← List.count_pos_iff, count_enqueue _ _ _ hx, awaits]
    by_cases hmem : x ∈ (inboxOf w.log).ids
    · have := List.count_pos_iff.mpr hmem
      omega
    · rw [if_pos ⟨hin.resolve_left hmem, hmem⟩]
      omega
  intro x hx
  change x ∈ (w.await message).awaited at hx
  simp only [await] at hx
  split at hx
  · exact entered x (InboxState.ne_of_mem_ids (pending x hx)) (.inl (pending x hx))
  · next hnew =>
      rcases List.mem_cons.mp hx with rfl | hold
      · exact entered _ (fun h => hnew (.inl h)) (.inr rfl)
      · exact entered x (InboxState.ne_of_mem_ids (pending x hold)) (.inl (pending x hold))

theorem Tended.wakeWith (inv : w.Tended) (hi : w.current = some i) (target : InboxTarget) (message : Json)
    (options : DriveOptions) (refused : Bool) (heeded : refused = false → w.Heeded i options) :
    (w.wakeWith i target message options refused).Tended := by
  have merged := Touched.updateAgent w i (f := (·.mergeExec options)) fun _ => rfl
  have newest := inv.owned.current i hi
  cases refused with
  | true =>
      exact ⟨inv.owned.touched merged, inv.registered, inv.pending, fun raised some =>
        (inv.attended raised some).updateAgent i fun _ => rfl⟩
  | false =>
      obtain ⟨a, ha⟩ : ∃ a, w.agents[i]? = some a :=
        ⟨_, List.getElem?_eq_getElem (by omega)⟩
      have touched := (merged.trans (.await _ message)).trans (.enqueue _ target message)
      have owned := (inv.owned.touched touched).kick (by rw [touched.agents_length]; exact newest)
      generalize hu : w.updateAgent i (·.mergeExec options) = u at *
      have hlog : u.log = w.log := by rw [← hu]; rfl
      have hawaited : u.awaited = w.awaited := by rw [← hu]; rfl
      have kicked : w.wakeWith i target message options false =
          ((u.await message).enqueue target message).kick i := by
        rw [← hu]
        rfl
      rw [kicked]
      have same : ∀ v : World, (v.kick i).log = v.log ∧ (v.kick i).awaited = v.awaited ∧
          (v.kick i).current = v.current := by
        intro v
        rcases v.kick_cases i with hk | ⟨_, _, _, hk⟩ <;> rw [hk] <;> exact ⟨rfl, rfl, rfl⟩
      have waits : (u.await message).agents = u.agents ∧ (u.await message).drives = u.drives ∧
          (u.await message).current = u.current ∧ (u.await message).stopped = u.stopped := by
        simp only [World.await]
        split <;> exact ⟨rfl, rfl, rfl, rfl⟩
      have current : ((u.await message).enqueue target message).current = some i := by
        change (u.await message).current = _
        rw [waits.2.2.1, ← hu]
        exact hi
      refine ⟨owned, fun none => ?_, ?_, fun _ _ => ?_⟩
      · rw [(same _).2.2, current] at none
        cases none
      · rw [(same _).1, (same _).2.1]
        exact awaited_enqueue u target message (by rw [hlog, hawaited]; exact inv.pending)
      · have agent : ((u.await message).enqueue target message).agents[i]? = some (a.mergeExec options) := by
          change (u.await message).agents[i]? = _
          rw [waits.1, ← hu]
          simp [World.updateAgent, ha]
        have now := heeded rfl a ha
        by_cases hr : a.running = true
        · rw [if_pos hr] at now
          obtain ⟨stop, d, hd, hagent, awake⟩ := now
          have attended : ((u.await message).enqueue target message).Attended := by
            refine ⟨i, a.mergeExec options, current, agent, stop, d, ?_, hagent, awake⟩
            change d ∈ (u.await message).drives
            rw [waits.2.1, ← hu]
            exact hd
          exact attended.kick (inv.owned.touched touched)
        · rw [if_neg hr] at now
          refine attended_kick current agent (by simpa [AgentState.mergeExec] using hr) ?_
          change (a.mergeExec options).callerStop.any (· ∈ (u.await message).stopped) = false
          rw [waits.2.2.2, ← hu]
          exact now

theorem Tended.updateAgent (inv : w.Tended) (i : Nat) {f : AgentState → AgentState}
    (hr : ∀ a, (f a).running = a.running) (hs : ∀ a, (f a).stop = a.stop) : (w.updateAgent i f).Tended :=
  ⟨inv.owned.touched (.updateAgent w i hr), inv.registered, inv.pending, fun raised some =>
    (inv.attended raised some).updateAgent i hs⟩

theorem Tended.kick (inv : w.Tended) (hi : w.current = some i) : (w.kick i).Tended := by
  have attended := fun raised some => (inv.attended raised some).kick (i := i) inv.owned
  have owned := inv.owned.kick (inv.owned.current i hi)
  rcases w.kick_cases i with hk | ⟨a, _, _, hk⟩ <;> rw [hk] at attended owned ⊢
  · exact inv
  · exact ⟨owned, fun none => (by rw [hi] at none; cases none), inv.pending, attended⟩

theorem Tended.enqueue (inv : w.Tended) (target : InboxTarget) (message : Json) :
    (w.enqueue target message).Tended := by
  refine ⟨inv.owned.touched (.enqueue w target message), inv.registered, fun x hx => ?_,
    fun raised some => (inv.attended raised some).congr rfl rfl rfl⟩
  have hin := inv.pending x hx
  rw [← List.count_pos_iff, count_enqueue w target message (InboxState.ne_of_mem_ids hin)]
  have := List.count_pos_iff.mpr hin
  omega

theorem Tended.run (inv : w.Tended) (hi : w.current = some i) (options : DriveOptions) (input : String)
    (refused : Bool) : (w.run i options input refused).Tended := by
  have merged := inv.updateAgent i (f := (·.mergeExec options)) (fun _ => rfl) fun _ => rfl
  simp only [World.run]
  split
  · exact merged.kick hi
  · split
    · split
      · exact merged
      · exact (merged.enqueue _ _).updateAgent i (fun _ => rfl) fun _ => rfl
    · refine Tended.kick (merged.updateAgent i ?_ ?_) hi
      · exact fun _ => rfl
      · exact fun _ => rfl

/-- After a cancel nothing is waited for. -/
theorem Tended.forget (inv : w.Tended) (h : ({ w with awaited := [] } : World).Touched w')
    (current : w'.current = w.current) (empty : w'.awaited = []) : w'.Tended := by
  have forgot : ({ w with awaited := [] } : World).Owned :=
    ⟨inv.owned.newest, inv.owned.current, inv.owned.busy, inv.owned.alone⟩
  refine ⟨forgot.touched h, fun none => ?_, fun x hx => ?_, fun _ some => absurd empty some⟩
  · rw [h.drives]
    exact inv.registered (current.symm.trans none)
  · rw [empty] at hx
    cases hx

theorem cancel_awaited {keepInbox : Bool} {refused : Option InboxTarget}
    (h : w.cancel i keepInbox refused = some w') : w'.current = w.current ∧ w'.awaited = w.awaited := by
  rcases of_call_cancel h with rfl | rfl | rfl | rfl <;> exact ⟨rfl, rfl⟩

theorem Tended.call (inv : w.Tended) {c : Call} (h : w.call c = some w') (wakes : w.Wakes (.call c)) :
    w'.Tended := by
  cases c with
  | create =>
      simp only [World.call] at h
      split at h
      · cases h
        exact inv
      · next hc =>
          cases h
          have empty := inv.registered hc
          -- a driver that was attended to would be registered
          have idle : w.raised = false → w.awaited = [] := by
            intro raised
            by_contra some
            obtain ⟨i, _, hi, _⟩ := inv.attended raised some
            rw [hc] at hi
            cases hi
          refine ⟨owned_create fun d hd => ?_, fun none => absurd none (Option.some_ne_none _), inv.pending,
            fun raised some => absurd (idle raised) some⟩
          rw [empty] at hd
          cases hd
  | createFailed | dispose | shutdown => exact wakes.elim
  | run options input refused =>
      obtain ⟨i, hi, rfl⟩ := Option.map_eq_some_iff.mp h
      exact inv.run hi options input refused
  | followup message options refused | steer message options refused =>
      obtain ⟨i, hi, rfl⟩ := Option.map_eq_some_iff.mp h
      exact inv.wakeWith hi _ message options refused fun hr => wakes hr i hi
  | inject message refused =>
      obtain ⟨i, _, rfl⟩ := Option.map_eq_some_iff.mp h
      cases refused with
      | true => exact inv
      | false => exact inv.enqueue _ message
  | cancel keepInbox refused =>
      simp only [World.call] at h
      split at h
      · cases h
        exact inv.forget (.refl _) rfl rfl
      · have same := cancel_awaited h
        exact inv.forget (.cancel h) same.1 same.2
  | requestStop token =>
      cases h
      refine ⟨inv.owned.touched (.halt w token), inv.registered, inv.pending, fun raised some => ?_⟩
      obtain ⟨i, a, hi, ha, stop, rest⟩ := inv.attended raised some
      refine ⟨i, a, hi, ?_, stop, rest⟩
      simp [ha, wakes some i hi a ha]
  | append event =>
      simp only [World.call] at h
      split at h
      · next hf =>
          cases h
          refine ⟨inv.owned.touched (.append w hf), inv.registered, ?_, fun raised some =>
            (inv.attended raised some).congr rfl rfl rfl⟩
          have same : inboxOf (w.log ++ [event]) = inboxOf w.log := by
            refine inboxOf_append fun e he ht => hf ?_
            rw [List.mem_singleton.mp he] at ht
            rw [ht]
            simp [loopTypes]
          simp only [same]
          exact inv.pending
      · cases h

/-! The drives -/

section
variable {d : Drive} {a : AgentState} {o : Outcome} {m : Move}

/-- A drive that does not raise leaves its driver attended to while a message waits. -/
theorem Tended.attended_apply (inv : w.Tended) (hd : w.drives[i]? = some d)
    (ha : w.agents[d.agent]? = some a) (moved : Moved w.maxTokensAsSuccess w.log a d.phase o m)
    (raised : (w.apply i d m).raised = false) (some : w.awaited ≠ []) : (w.apply i d m).Attended := by
  have hlt := (List.getElem?_eq_some_iff.mp hd).1
  simp only [World.apply, Bool.or_eq_false_iff] at raised
  obtain ⟨j, b, hj, hb, stop, e, he, rfl, awake⟩ := inv.attended raised.1 some
  obtain ⟨k, hk⟩ := List.mem_iff_getElem?.mp he
  by_cases settled : d.phase.Settled
  · -- what settled leaves every agent's stop and the drive that is awake
    have hne : i ≠ k := by
      rintro rfl
      rw [hd] at hk
      cases hk
      exact awake.appending settled
    have kept : (w.apply i d m).drives[k]? = Option.some e := by
      simp only [World.apply, List.getElem?_set_ne hne, hk]
    obtain ⟨b', hb', stop'⟩ : ∃ b', (w.apply i d m).agents[e.agent]? = Option.some b' ∧ b'.stop = false := by
      simp only [World.apply]
      by_cases hag : d.agent = e.agent
      · rw [hag] at ha ⊢
        rw [ha] at hb
        cases hb
        exact ⟨m.agent, List.getElem?_set_self (List.getElem?_eq_some_iff.mp ha).1,
          (moved_stop moved).trans stop⟩
      · exact ⟨b, by rw [List.getElem?_set_ne hag, hb], stop⟩
    exact ⟨e.agent, b', hj, hb', stop', e, List.mem_of_getElem? kept, rfl, awake⟩
  · obtain rfl := inv.owned.alone i k d e hd hk settled awake.appending
    rw [hd] at hk
    cases hk
    rw [ha] at hb
    cases hb
    refine ⟨d.agent, m.agent, hj, ?_, (moved_stop moved).trans stop, { d with phase := m.phase }, ?_, rfl, ?_⟩
    · exact List.getElem?_set_self (List.getElem?_eq_some_iff.mp ha).1
    · exact List.mem_of_getElem? (List.getElem?_set_self hlt)
    · rcases moved_awake moved awake with still | stopped | drained | ⟨what, hp⟩
      · exact still
      · rw [stop] at stopped
        cases stopped
      · obtain ⟨x, hx⟩ := List.exists_mem_of_ne_nil _ some
        have pending := inv.pending x hx
        rw [InboxState.ids_of_not_pending drained] at pending
        cases pending
      · rw [hp] at raised
        cases raised.2

theorem Tended.apply (inv : w.Tended) (hd : w.drives[i]? = some d) (ha : w.agents[d.agent]? = some a)
    (moved : Moved w.maxTokensAsSuccess w.log a d.phase o m) : (w.apply i d m).Tended := by
  refine ⟨inv.owned.apply hd ha moved, fun none => ?_, fun x hx => ?_, fun raised some =>
    inv.attended_apply hd ha moved raised fun empty => some ?_⟩
  · rw [inv.registered none] at hd
    cases hd
  · obtain ⟨hx, unclaimed⟩ := List.mem_filter.mp hx
    have before := List.count_pos_iff.mpr (inv.pending x hx)
    have kept := moved_ids moved x
    rw [List.count_eq_zero.mpr (of_decide_eq_true unclaimed)] at kept
    exact List.count_pos_iff.mp (by simp only [World.apply]; omega)
  · simp [World.apply, empty]

end

theorem Tended.advance (inv : w.Tended) {o : Outcome} (h : w.advance i o = some w') : w'.Tended := by
  obtain ⟨d, a, m, hd, ha, moved, hw⟩ := advance_cases h
  have applied := inv.apply hd ha moved
  rcases hw with rfl | ⟨hp, rfl⟩
  · exact applied
  · unfold World.rewake
    split
    · refine applied.kick ?_
      have newest := inv.owned.newest d (List.mem_of_getElem? hd) (by rw [hp]; exact id)
      cases hc : w.current with
      | none =>
          rw [inv.registered hc] at hd
          cases hd
      | some j =>
          have := inv.owned.current j hc
          simp only [World.apply, hc, Option.some.injEq]
          omega
    · exact applied

theorem tended_reached {ready : Log → Prop}
    (h : (loopSystem ready).Reached (fun w a => w.Wakes a) w) : w.Tended := by
  refine System.Reached.invariant ?_ ?_ h
  · rintro _ ⟨log, success, _, rfl⟩
    exact ⟨owned_fresh log success, fun _ => rfl, fun x hx => absurd hx List.not_mem_nil,
      fun _ some => absurd rfl some⟩
  · intro w a w' _ inv hs wakes
    cases a with
    | call c => exact inv.call hs wakes
    | advance i o => exact inv.advance hs

end World

/-- No lost wake-up: when the driver is idle and no drive raised, no message that was
queued since the last cancel and not claimed is still pending. -/
theorem idle_heard {ready : Log → Prop} {w : World}
    (h : (loopSystem ready).Reached (fun w a => w.Wakes a) w) (idle : w.Idle) (raised : w.raised = false) :
    ∀ x ∈ w.awaited, x ∉ (inboxOf w.log).ids := by
  have inv := World.tended_reached h
  intro x hx
  obtain ⟨i, a, hi, ha, running⟩ := (inv.attended raised (List.ne_nil_of_mem hx)).running inv.owned
  rw [idle i hi a ha] at running
  cases running

/-- The end of a step that the model answered, up to the completion of the drive. -/
def answerDone : List Outcome :=
  [.chunks [.blockEnd 0 (.text "done"), .finish .stop none none], .ok, .ok, .ok, .ok, .ok, .ok]

instance (w : World) : Decidable w.Idle :=
  inferInstanceAs (Decidable (∀ i ∈ w.current, ∀ a ∈ w.agents[i]?, a.running = false))

/-- A message that is steered into a running turn is claimed before the driver is idle. -/
theorem idle_heard_steered : ∃ w, (loopSystem fun _ => True).Reached (fun w a => w.Wakes a) w ∧
    w.accepted.length = 2 ∧ w.Idle ∧ ∀ x ∈ w.awaited, x ∉ (inboxOf w.log).ids := by
  have played : (System.follow World.next (fun w a => decide (w.Wakes a)) (World.fresh [] false)
      ([.call .create, .call (.followup (queued "m1") {} false)] ++ advances 0 (toStream "m1" true) ++
        [.call (.steer (queued "m2") {} false)] ++
        advances 0 [.chunks [.blockEnd 0 (.text "done"), .finish .stop none none], .ok, .ok, .ok, .ok, .ok] ++
        advances 0 (admitBatch "m2") ++ advances 0 answerDone ++ advances 0 [.ok, .ok])).any (fun w =>
          decide (w.accepted.length = 2 ∧ w.Idle ∧ w.raised = false)) = true := by decide +kernel
  obtain ⟨w, hw, hplayed⟩ := (Option.any_eq_true _ _).mp played
  obtain ⟨accepted, idle, raised⟩ := of_decide_eq_true hplayed
  have reached := System.follow_reached (S := loopSystem fun _ => True) (P := fun w a => w.Wakes a)
    (fun _ _ _ h => h) (fun _ _ h => of_decide_eq_true h) hw (.start ⟨[], false, trivial, rfl⟩)
  exact ⟨w, reached, accepted, idle, idle_heard reached idle raised⟩

/-- The calls that queue, wake and cancel, and the steps of the drives. -/
def Act.asks : Act → Bool
  | .call .createFailed | .call .dispose | .call .shutdown | .call (.requestStop _)
  | .call (.append _) => false
  | .call .create | .call (.run _ _ _) | .call (.followup _ _ _) | .call (.steer _ _ _)
  | .call (.inject _ _) | .call (.cancel _ _) | .advance _ _ => true

/-- A message arrives while the turn that was cancelled is aborting; nobody looks at it. -/
theorem idle_unheard : ¬ ∀ w, (loopSystem fun _ => True).Reached (fun _ a => a.asks = true) w → w.Idle →
    w.raised = false → ∀ x ∈ w.awaited, x ∉ (inboxOf w.log).ids := by
  intro heard
  have played : (System.follow World.next (fun _ a => a.asks) (World.fresh [] false)
      ([.call .create, .call (.followup (queued "m1") {} false)] ++ advances 0 (toStream "m1" true) ++
        [.call (.cancel false none), .call (.followup (queued "m2") {} false)] ++
        advances 0 [.chunks [.finish .aborted none none], .ok, .ok, .ok, .ok, .ok, .ok, .ok, .ok,
          .ok])).any (fun w => decide (w.Idle ∧ w.raised = false ∧ "m2" ∈ w.awaited ∧
            "m2" ∈ (inboxOf w.log).ids)) = true := by decide +kernel
  obtain ⟨w, hw, hplayed⟩ := (Option.any_eq_true _ _).mp played
  obtain ⟨idle, raised, waits, pending⟩ := of_decide_eq_true hplayed
  have reached := System.follow_reached (S := loopSystem fun _ => True) (P := fun _ a => a.asks = true)
    (fun _ _ _ h => h) (fun _ _ h => h) hw (.start ⟨[], false, trivial, rfl⟩)
  exact heard w reached idle raised "m2" waits pending

end Araya.Agent
