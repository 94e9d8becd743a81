import Araya.Agent.Moves

/-!
Where messages come from. What is pending, held by a drive or kept as a seed was
pending, held or kept before, or it was brought by the call, the producers or the
pre-step listeners; so a property of all that is brought holds of all that is carried.
-/

namespace Araya.Agent

/-- The messages that a call hands over. -/
def World.brought (w : World) : Call → List Json
  | .run _ input _ => [w.runInput input]
  | .followup message _ _ | .steer message _ _ | .inject message _ => [message]
  | _ => []

/-- The messages that an outcome hands over. -/
def Outcome.brought : Outcome → List Json
  | .context messages | .decision false messages => messages
  | _ => []

structure World.Carries (P : Json → Prop) (w : World) : Prop where
  queued : ∀ target, ∀ m ∈ (inboxOf w.log).queue target, P m
  held : ∀ d ∈ w.drives, ∀ m ∈ d.phase.hands, P m
  seeds : ∀ a ∈ w.agents, ∀ s ∈ a.seed, P s

/-! Splices -/

theorem mem_insertNew {ids : List String} {queue : List Json} {at' : Nat} {inserted : List Json} {m : Json}
    (h : m ∈ insertNew ids queue at' inserted) : m ∈ queue ∨ m ∈ inserted := by
  induction inserted generalizing ids queue at' with
  | nil => exact .inl h
  | cons message rest ih =>
      simp only [insertNew] at h
      split at h
      · exact (ih h).imp_right (List.mem_cons_of_mem _)
      · rcases ih h with hq | hr
        · rcases List.mem_append.mp hq with before | after
          · exact .inl (List.mem_of_mem_take before)
          · rcases List.mem_cons.mp after with rfl | after
            · exact .inr List.mem_cons_self
            · exact .inl (List.mem_of_mem_drop after)
        · exact .inr (List.mem_cons_of_mem _ hr)

theorem InboxState.mem_setQueue {s : InboxState} {target t : InboxTarget} {q : List Json} {m : Json}
    (h : m ∈ (s.setQueue target q).queue t) : m ∈ q ∨ m ∈ s.queue t := by
  cases target <;> cases t <;> first | exact .inl h | exact .inr h

theorem InboxState.mem_spliced {s : InboxState} {target t : InboxTarget} {start count : Int}
    {inserted : List Json} {m : Json} (h : m ∈ (s.spliced target start count inserted).queue t) :
    m ∈ s.queue target ∨ m ∈ s.queue t ∨ m ∈ inserted := by
  have kept : ∀ {i j : Nat} {x : Json}, x ∈ (s.queue target).take i ++ (s.queue target).drop j → x ∈ s.queue target :=
    fun hx => (List.mem_append.mp hx).elim List.mem_of_mem_take List.mem_of_mem_drop
  simp only [InboxState.spliced] at h
  rcases InboxState.mem_setQueue h with hi | hs
  · exact (mem_insertNew hi).imp kept .inr
  · exact (InboxState.mem_setQueue hs).imp kept .inl

section
variable {P : Json → Prop} {log : Log}

/-- A mutation leaves what was pending and what it inserts. -/
theorem queued_mutation (queued : ∀ target, ∀ m ∈ (inboxOf log).queue target, P m) {target : InboxTarget}
    {start count : Int} {inserted : List Json} {discard : Bool} (ins : ∀ m ∈ inserted, P m)
    {mutation : InboxMutation} (h : mutation = makeInboxSplice (inboxOf log) target start count inserted discard) :
    ∀ t, ∀ m ∈ (inboxOf (log ++ mutation.events)).queue t, P m := by
  intro t m hm
  cases hn : mutation.noop with
  | true =>
      simp only [InboxMutation.events, hn, if_true, List.append_nil] at hm
      exact queued t m hm
  | false =>
      rw [inboxOf_mutation h hn] at hm
      rcases InboxState.mem_spliced hm with old | old | new
      · exact queued _ m old
      · exact queued t m old
      · exact ins m new

theorem mem_removed {s : InboxState} {target : InboxTarget} {start count : Int} {inserted : List Json}
    {discard : Bool} {m : Json} (h : m ∈ (makeInboxSplice s target start count inserted discard).removed) :
    m ∈ s.queue target := by
  simp only [makeInboxSplice] at h
  split at h
  · cases h
  · exact List.mem_of_mem_drop (List.mem_of_mem_take h)

end

/-! What a call writes -/

/-- The log grew by splices of the inbox. -/
def World.Spliced (w w' : World) : Prop := ∃ events, w'.log = w.log ++ events ∧ ∀ e ∈ events, ∃ data, e = .inboxSpliced data

namespace World.Spliced
variable {w w' w'' : World}

theorem of_log (h : w'.log = w.log) : w.Spliced w' := ⟨[], by rw [h, List.append_nil], by simp⟩

theorem trans (h : w.Spliced w') (h' : w'.Spliced w'') : w.Spliced w'' := by
  obtain ⟨events, hl, he⟩ := h
  obtain ⟨events', hl', he'⟩ := h'
  refine ⟨events ++ events', by rw [hl', hl, List.append_assoc], fun e hmem => ?_⟩
  exact (List.mem_append.mp hmem).elim (he e) (he' e)

theorem kick (w : World) (i : Nat) : w.Spliced (w.kick i) := by
  rcases w.kick_cases i with hk | ⟨a, _, _, hk⟩ <;> exact of_log (by rw [hk])

theorem await (w : World) (message : Json) : w.Spliced (w.await message) := by
  simp only [World.await]
  split <;> exact of_log rfl

theorem enqueue (w : World) (target : InboxTarget) (message : Json) : w.Spliced (w.enqueue target message) :=
  ⟨_, rfl, fun _ he => ⟨_, List.mem_singleton.mp he⟩⟩

theorem discard (w : World) (target : InboxTarget) : w.Spliced (w.discard target) := by
  refine ⟨_, rfl, fun e he => ?_⟩
  unfold InboxMutation.events at he
  split at he
  · cases he
  · exact ⟨_, List.mem_singleton.mp he⟩

theorem run (w : World) (i : Nat) (options : DriveOptions) (input : String) (refused : Bool) :
    w.Spliced (w.run i options input refused) := by
  have merged : w.Spliced (w.updateAgent i (·.mergeExec options)) := of_log rfl
  simp only [World.run]
  split
  · exact merged.trans (kick _ i)
  · split
    · split
      · exact merged
      · exact (merged.trans (enqueue _ _ _)).trans (of_log rfl)
    · exact (merged.trans (of_log rfl)).trans (kick _ i)

theorem wakeWith (w : World) (i : Nat) (target : InboxTarget) (message : Json) (options : DriveOptions)
    (refused : Bool) : w.Spliced (w.wakeWith i target message options refused) := by
  have merged : w.Spliced (w.updateAgent i (·.mergeExec options)) := of_log rfl
  simp only [World.wakeWith]
  split
  · exact merged
  · exact ((merged.trans (await _ message)).trans (enqueue _ target message)).trans (kick _ i)

theorem cancel {i : Nat} {keepInbox : Bool} {refused : Option InboxTarget}
    (h : w.cancel i keepInbox refused = some w') : w.Spliced w' := by
  rcases World.of_call_cancel h with rfl | rfl | rfl | rfl
  · exact of_log rfl
  · exact discard _ _
  · exact of_log rfl
  · exact ((discard _ _).trans (discard _ _)).trans (of_log rfl)

end World.Spliced

theorem World.call_spliced {w w' : World} {c : Call} (h : w.call c = some w') :
    w.Spliced w' ∨ ∃ e, c = .append e ∧ e.Foreign ∧ w'.log = w.log ++ [e] := by
  cases c with
  | create =>
      simp only [World.call] at h
      split at h <;> cases h <;> exact .inl (.of_log rfl)
  | createFailed => cases h; exact .inl (.of_log rfl)
  | run options input refused =>
      obtain ⟨i, _, rfl⟩ := Option.map_eq_some_iff.mp h
      exact .inl (.run w i options input refused)
  | followup message options refused | steer message options refused =>
      obtain ⟨i, _, rfl⟩ := Option.map_eq_some_iff.mp h
      exact .inl (.wakeWith w i _ message options refused)
  | inject message refused =>
      obtain ⟨i, _, rfl⟩ := Option.map_eq_some_iff.mp h
      cases refused with
      | true => exact .inl (.of_log rfl)
      | false => exact .inl (.enqueue w _ message)
  | cancel keepInbox refused =>
      have forgot : w.Spliced { w with awaited := [] } := .of_log rfl
      simp only [World.call] at h
      split at h
      · cases h; exact .inl forgot
      · exact .inl (forgot.trans (.cancel h))
  | dispose | shutdown =>
      simp only [World.call] at h
      split at h <;> cases h <;> exact .inl (.of_log rfl)
  | requestStop token => cases h; exact .inl (.of_log rfl)
  | append event =>
      simp only [World.call] at h
      split at h
      · next foreign => cases h; exact .inr ⟨event, rfl, foreign, rfl⟩
      · cases h

namespace World.Carries
variable {P : Json → Prop} {w w' : World} {i : Nat}

theorem updateAgent (inv : w.Carries P) (i : Nat) {f : AgentState → AgentState}
    (hf : ∀ a, ∀ s ∈ (f a).seed, s ∈ a.seed ∨ P s) : (w.updateAgent i f).Carries P := by
  exact ⟨inv.queued, inv.held, updateAgent_seeds i hf inv.seeds⟩

theorem kick (inv : w.Carries P) (i : Nat) : (w.kick i).Carries P := by
  rcases w.kick_cases i with hk | ⟨a, _, _, hk⟩ <;> rw [hk]
  · exact inv
  · have updated := inv.updateAgent i (f := fun a =>
      { a with running := true, stop := a.callerStop.any (· ∈ w.stopped), bridge := a.callerStop })
      fun a s hs => .inl hs
    refine ⟨inv.queued, fun d hd => ?_, updated.seeds⟩
    rcases List.mem_append.mp hd with old | new
    · exact inv.held d old
    · cases List.mem_singleton.mp new
      exact fun m hm => absurd hm List.not_mem_nil

theorem congr (inv : w.Carries P) (log : w'.log = w.log) (drives : w'.drives = w.drives)
    (agents : w'.agents = w.agents) : w'.Carries P := by
  refine ⟨?_, ?_, ?_⟩
  · rw [log]; exact inv.queued
  · rw [drives]; exact inv.held
  · rw [agents]; exact inv.seeds

theorem await (inv : w.Carries P) (message : Json) : (w.await message).Carries P := by
  simp only [World.await]
  split
  · exact inv
  · exact inv.congr rfl rfl rfl

theorem enqueue (inv : w.Carries P) (target : InboxTarget) {message : Json} (hm : P message) :
    (w.enqueue target message).Carries P := by
  refine ⟨?_, inv.held, inv.seeds⟩
  have hn : (makeInboxSplice (inboxOf w.log) target int64Max 0 [message] false).noop = false := by
    simp [makeInboxSplice]
  have carried : ∀ m ∈ [message], P m := fun m h => by cases List.mem_singleton.mp h; exact hm
  have grown := queued_mutation inv.queued carried
    (rfl : makeInboxSplice (inboxOf w.log) target int64Max 0 [message] false = _)
  simpa only [InboxMutation.events, hn, if_false, Bool.false_eq_true, World.enqueue] using grown

theorem discard (inv : w.Carries P) (target : InboxTarget) : (w.discard target).Carries P :=
  ⟨queued_mutation inv.queued (fun _ h => absurd h List.not_mem_nil) rfl, inv.held, inv.seeds⟩

theorem requestAbort (inv : w.Carries P) (i : Nat) : (w.requestAbort i).Carries P :=
  inv.updateAgent i fun a s hs => .inl (by split at hs <;> exact hs)

theorem run (inv : w.Carries P) (i : Nat) (options : DriveOptions) {input : String} (refused : Bool)
    (hm : P (w.runInput input)) : (w.run i options input refused).Carries P := by
  have merged : (w.updateAgent i (·.mergeExec options)).Carries P := inv.updateAgent i fun a s hs => .inl hs
  simp only [World.run]
  split
  · exact merged.kick i
  · split
    · split
      · exact merged
      · exact (merged.enqueue _ hm).updateAgent i fun a s hs => .inl hs
    · exact (merged.updateAgent i fun a s hs => .inr (by cases hs; exact hm)).kick i

theorem wakeWith (inv : w.Carries P) (i : Nat) (target : InboxTarget) {message : Json} (options : DriveOptions)
    (refused : Bool) (hm : P message) : (w.wakeWith i target message options refused).Carries P := by
  have merged : (w.updateAgent i (·.mergeExec options)).Carries P := inv.updateAgent i fun a s hs => .inl hs
  simp only [World.wakeWith]
  split
  · exact merged
  · exact ((merged.await message).enqueue target hm).kick i

theorem call (inv : w.Carries P) {c : Call} (brought : ∀ m ∈ w.brought c, P m) (h : w.call c = some w') :
    w'.Carries P := by
  cases c with
  | create =>
      simp only [World.call] at h
      split at h
      · cases h; exact inv
      · cases h
        refine ⟨inv.queued, inv.held, fun a ha => ?_⟩
        rcases List.mem_append.mp ha with old | new
        · exact inv.seeds a old
        · cases List.mem_singleton.mp new
          exact fun s hs => by cases hs
  | createFailed => cases h; exact inv.congr rfl rfl rfl
  | run options input refused =>
      obtain ⟨i, _, rfl⟩ := Option.map_eq_some_iff.mp h
      exact inv.run i options refused (brought _ List.mem_cons_self)
  | followup message options refused | steer message options refused =>
      obtain ⟨i, _, rfl⟩ := Option.map_eq_some_iff.mp h
      exact inv.wakeWith i _ options refused (brought _ List.mem_cons_self)
  | inject message refused =>
      obtain ⟨i, _, rfl⟩ := Option.map_eq_some_iff.mp h
      cases refused with
      | true => exact inv
      | false => exact inv.enqueue _ (brought _ List.mem_cons_self)
  | cancel keepInbox refused =>
      have forgot : ({ w with awaited := [] } : World).Carries P := inv.congr rfl rfl rfl
      simp only [World.call] at h
      split at h
      · cases h; exact forgot
      · rcases World.of_call_cancel h with rfl | rfl | rfl | rfl
        · exact forgot
        · exact forgot.discard _
        · exact forgot.requestAbort _
        · exact ((forgot.discard _).discard _).requestAbort _
  | dispose | shutdown =>
      simp only [World.call] at h
      split at h
      · cases h; exact inv
      · cases h; exact (inv.requestAbort _).congr rfl rfl rfl
  | requestStop token =>
      cases h
      refine ⟨inv.queued, inv.held, fun a ha s hs => ?_⟩
      obtain ⟨b, hb, rfl⟩ := List.mem_map.mp ha
      exact inv.seeds b hb s (by split at hs <;> exact hs)
  | append event =>
      simp only [World.call] at h
      split at h
      · next hf =>
          cases h
          refine ⟨?_, inv.held, inv.seeds⟩
          have same : inboxOf (w.log ++ [event]) = inboxOf w.log := inboxOf_append fun e he ht => by
            cases List.mem_singleton.mp he
            exact hf (by rw [ht]; simp [loopTypes])
          rw [same]
          exact inv.queued
      · cases h

end World.Carries

/-! Moves -/

section
variable {success : Bool} {log : Log} {a : AgentState} {p : Phase} {o : Outcome} {m : Move} {P : Json → Prop}

/-- What a drive holds after a move it held, claimed, kept as its seed or was handed. -/
theorem moved_hands (h : Moved success log a p o m) {x : Json} (hx : x ∈ m.phase.hands) :
    x ∈ p.hands ∨ x ∈ m.claimed ∨ x ∈ a.seed ∨ x ∈ o.brought := by
  cases h with
  | claimsStep t mutation hm =>
      simp only at hx
      split at hx <;> exact .inr (.inl hx)
  | claimsTurn t claimed mutation hm => exact (List.mem_append.mp hx).imp_right .inl
  | proposes t claimed messages =>
      rcases List.mem_append.mp hx with hx | seed
      · rcases List.mem_append.mp hx with context | held
        · exact .inr (.inr (.inr context))
        · exact .inl held
      · exact .inr (.inr (.inl (Option.mem_toList.mp seed)))
  | decides t proposed messages => exact .inr (.inr (.inr hx))
  | admits t message rest => exact .inl (List.mem_cons_of_mem _ hx)
  | proposesOn _ _ | begins _ _ _ | starts _ _ | prompts _ _ _ _ | prompted _ _ => exact .inl hx
  | _ => exact absurd hx List.not_mem_nil

theorem moved_claimed (h : Moved success log a p o m) {x : Json} (hx : x ∈ m.claimed) :
    ∃ target, x ∈ (inboxOf log).queue target := by
  cases h with
  | claimsStep t mutation hm => exact ⟨_, mem_removed (hm ▸ hx)⟩
  | claimsTurn t claimed mutation hm => exact ⟨_, mem_removed (hm ▸ hx)⟩
  | _ => cases hx

theorem moved_queued (h : Moved success log a p o m)
    (queued : ∀ target, ∀ x ∈ (inboxOf log).queue target, P x) :
    ∀ target, ∀ x ∈ (inboxOf (log ++ m.events)).queue target, P x := by
  have plain : ∀ {events : List LoopEvent}, (∀ e ∈ events, e.type ≠ "agent/inbox/spliced") →
      ∀ target, ∀ x ∈ (inboxOf (log ++ events)).queue target, P x :=
    fun he => by rw [inboxOf_append he]; exact queued
  cases h with
  | claimsStep t mutation hm | claimsTurn t claimed mutation hm =>
      exact queued_mutation queued (fun _ h => absurd h List.not_mem_nil) hm
  | prompts t messages events hf | requests t events hf =>
      refine plain fun e he ht => hf e he ?_
      rw [ht]
      simp [loopTypes]
  | ends t acc _ _ _ _ | answered t acc _ _ | asks t acc _ _ => exact plain (commit_plain t acc)
  | _ => exact plain (by simp [LoopEvent.type])

end

namespace World.Carries
variable {P : Json → Prop} {w w' : World} {i : Nat}

theorem apply (inv : w.Carries P) {d : Drive} {a : AgentState} {o : Outcome} {m : Move}
    (hd : w.drives[i]? = some d) (ha : w.agents[d.agent]? = some a)
    (moved : Moved w.maxTokensAsSuccess w.log a d.phase o m) (brought : ∀ x ∈ o.brought, P x) :
    (w.apply i d m).Carries P := by
  have agent := List.mem_of_getElem? ha
  refine ⟨moved_queued moved inv.queued, fun e he x hx => ?_, fun b hb s hs => ?_⟩
  · rcases List.mem_or_eq_of_mem_set he with old | rfl
    · exact inv.held e old x hx
    · rcases moved_hands moved hx with held | claimed | seed | handed
      · exact inv.held d (List.mem_of_getElem? hd) x held
      · obtain ⟨target, hq⟩ := moved_claimed moved claimed
        exact inv.queued target x hq
      · exact inv.seeds a agent x seed
      · exact brought x handed
  · rcases List.mem_or_eq_of_mem_set hb with old | rfl
    · exact inv.seeds b old s hs
    · rcases moved_seed moved with kept | none
      · exact inv.seeds a agent s (kept ▸ hs)
      · rw [none] at hs
        cases hs

theorem advance (inv : w.Carries P) {o : Outcome} (brought : ∀ x ∈ o.brought, P x)
    (h : w.advance i o = some w') : w'.Carries P := by
  obtain ⟨d, a, m, hd, ha, moved, rfl | ⟨_, rfl⟩⟩ := w.advance_cases h
  · exact inv.apply hd ha moved brought
  · have applied := inv.apply hd ha moved brought
    unfold World.rewake
    split
    · exact applied.kick _
    · exact applied

theorem mono {Q : Json → Prop} (inv : w.Carries P) (sub : ∀ m, P m → Q m) : w.Carries Q :=
  ⟨fun t m hm => sub m (inv.queued t m hm), fun d hd m hm => sub m (inv.held d hd m hm),
    fun a ha s hs => sub s (inv.seeds a ha s hs)⟩

end World.Carries

end Araya.Agent
