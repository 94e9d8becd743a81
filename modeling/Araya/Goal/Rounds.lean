import Araya.Goal.RoundDriver

/-!
Rounds behind the fence. A batch that passed the fence names the current revision and
its next round as long as no operation commits before it is appended; the service
commits at any time, so a listener that waits there lets a stale round through.
-/

namespace Araya.Goals
open Agent

/-- A pre-step behind its fence, up to the append of its batch. -/
def passed (fenced : Bool) : Agent.Phase → Bool
  | .deciding _ _ => fenced
  | .decided _ reject _ => !reject
  | .starting _ _ | .prompting _ _ | .admitting _ _ => true
  | _ => false

def batchOf (fenced : Bool) (p : Agent.Phase) : List Json := if passed fenced p then goalMessages p.hands else []

namespace GoalLoop

/-- The goal messages that a drive has behind the fence. -/
def reserved (g : GoalLoop) (i : Nat) : List Json :=
  (g.world.drives[i]?).elim [] fun d => batchOf (g.fenced.contains i) d.phase

def Free (g : GoalLoop) : Prop := ∀ i, g.reserved i = []

/-- A goal operation commits only while no round is behind the fence, and the fence lets a
round pass only alone. -/
def Undisturbed (g : GoalLoop) : GoalLoopAct → Prop
  | .operate op draws => (g.session.change draws op).toBool = true → g.Free
  | .plan _ => (∃ goal, g.armedGoal = some goal ∧ goal.maxGoalRounds ≤ g.state.roundsStarted) → g.Free
  | .fence i => ∀ d ∈ g.world.drives[i]?, goalMessages d.phase.hands ≠ [] →
      (goalMessages d.phase.hands).length = 1 ∧ g.Free
  | _ => True

/-- Each creation draws from a clock past the epoch and mints a new identity. -/
def Timely (g : GoalLoop) : GoalLoopAct → Prop
  | .operate op draws => Drawn g.state draws op
  | _ => True

end GoalLoop

/-! Rounds and revisions -/

/-- The message names a goal seen before, and the current one only with a round of its budget. -/
def Budgeted (state : GoalProjectionState) (message : Json) : Prop :=
  ∀ source, goalSource message = some source → ∀ r, decodeRound source = .ok r →
    r.goalId ∈ state.seenIds ∧ ∀ goal ∈ state.current, goal.id = r.goalId →
      r.revision ≤ goal.revision ∧ (r.revision = goal.revision → r.round ≤ goal.maxGoalRounds)

/-- The message is the next round of the current goal. -/
def Fits (state : GoalProjectionState) (message : Json) : Prop :=
  ∀ source, goalSource message = some source → ∃ r, decodeRound source = .ok r ∧ Admissible state r

/-- The goal stays, is a new one or advances, and no identity is forgotten. -/
structure Advances (state state' : GoalProjectionState) : Prop where
  seen : ∀ id ∈ state.seenIds, id ∈ state'.seenIds
  current : ∀ goal' ∈ state'.current, goal'.id ∉ state.seenIds ∨
    ∃ goal, state.current = some goal ∧ goal'.id = goal.id ∧ goal.revision < goal'.revision

section
variable {state state' : GoalProjectionState} {message : Json}

theorem applyChange_advances {change : DecodedChange} (h : applyChange state change = .ok state') :
    Advances state state' := by
  unfold applyChange at h
  split at h
  · obtain ⟨current, _, h⟩ := Sessions.except_bind h
    obtain ⟨_, _, h⟩ := Sessions.except_bind h
    obtain ⟨_, _, h⟩ := Sessions.except_bind h
    cases h
    exact ⟨fun _ h => h, fun _ h => by cases h⟩
  · obtain ⟨_, fresh, h⟩ := Sessions.except_bind h
    cases h
    have fresh := Sessions.of_ensure fresh
    simp only [Bool.and_eq_true, Bool.not_eq_true', List.contains_eq_mem, decide_eq_false_iff_not] at fresh
    refine ⟨fun _ h => List.mem_append_left _ h, fun goal' h => ?_⟩
    cases h
    exact .inl fresh.1.2
  · obtain ⟨current, now, h⟩ := Sessions.except_bind h
    obtain ⟨_, next, h⟩ := Sessions.except_bind h
    obtain ⟨_, _, h⟩ := Sessions.except_bind h
    obtain ⟨_, _, h⟩ := Sessions.except_bind h
    cases h
    have next := Sessions.of_ensure next
    simp only [Bool.and_eq_true, beq_iff_eq] at next
    refine ⟨fun _ h => h, fun goal' h => .inr ⟨current, Sessions.of_need now, ?_⟩⟩
    cases h
    exact ⟨next.1, by omega⟩

theorem Budgeted.advances (budgeted : Budgeted state message) (advances : Advances state state') :
    Budgeted state' message := by
  intro source hs r hr
  obtain ⟨seen, current⟩ := budgeted source hs r hr
  refine ⟨advances.seen _ seen, fun goal' hg same => ?_⟩
  rcases advances.current goal' hg with fresh | ⟨goal, now, id, older⟩
  · exact absurd (same ▸ seen) fresh
  · have before := (current goal now (id ▸ same)).1
    exact ⟨by omega, fun equal => by omega⟩

theorem Budgeted.congr (budgeted : Budgeted state message) (seen : state'.seenIds = state.seenIds)
    (current : state'.current = state.current) : Budgeted state' message := by
  unfold Budgeted
  rw [seen, current]
  exact budgeted

theorem Shaped.round (shaped : Shaped state) (round : Nat) : Shaped { state with roundsStarted := round } :=
  ⟨shaped.healthy, shaped.valid, shaped.seen, shaped.created, shaped.updated⟩

theorem budgeted_plain (plain : goalSource message = none) : Budgeted state message := by
  intro source hs
  rw [plain] at hs
  cases hs

theorem goalSource_round (goal : GoalSnapshot) (round : Nat) :
    goalSource (roundMessage goal round) = some (roundSource goal round) := by
  simp [goalSource, roundMessage, Llm.userMessageData, Json.objectField, roundSource, Json.stringField, Option.filter]

theorem decodeRound_source {goal : GoalSnapshot} {round : Nat} {r : Round}
    (h : decodeRound (roundSource goal round) = .ok r) : r = ⟨goal.id, goal.revision, round⟩ := by
  obtain ⟨id, hid, h⟩ := Sessions.except_bind h
  obtain ⟨revision, hrevision, h⟩ := Sessions.except_bind h
  obtain ⟨n, hn, h⟩ := Sessions.except_bind h
  cases h
  have hid := Sessions.of_need hid
  have hrevision := Sessions.of_need hrevision
  have hn := Sessions.of_need hn
  simp only [roundSource, Json.stringField, Json.optUintField, Json.find?_cons, Sessions.nonEmpty,
    Option.filter_eq_some_iff] at hid hrevision hn
  simp [Json.optUint] at hid hrevision hn
  rw [← hid.1, ← hrevision, ← hn.1]

/-- The round that the driver plans is one of the budget. -/
theorem roundMessage_budgeted (shaped : Shaped state) {goal : GoalSnapshot} (now : state.current = some goal)
    (budget : state.roundsStarted < goal.maxGoalRounds) :
    Budgeted state (roundMessage goal (state.roundsStarted + 1)) := by
  intro source hs r hr
  rw [goalSource_round] at hs
  cases hs
  rw [decodeRound_source hr]
  refine ⟨shaped.seen goal now, fun goal' hg _ => ?_⟩
  rw [now] at hg
  cases hg
  exact ⟨le_rfl, fun _ => budget⟩

end

/-! The fence -/

section
variable {g : GoalLoop}

theorem armedGoal_some {goal : GoalSnapshot} (h : g.armedGoal = some goal) :
    g.state.current = some goal ∧ goal.phase = .active := by
  obtain ⟨found, armed⟩ := Option.filter_eq_some_iff.mp h
  unfold GoalLoop.get at found
  split at found
  · cases found
  · exact ⟨found, by simpa using (Bool.and_eq_true_iff.mp armed).1⟩

/-- What matches the exact live revision is its next round. -/
theorem matchesRound_fits (shaped : Shaped g.state) {message : Json} (budgeted : Budgeted g.state message)
    (h : (goalSource message).all g.matchesRound = true) : Fits g.state message := by
  intro source hs
  rw [hs] at h
  obtain ⟨goal, armed, same⟩ := (Option.any_eq_true _ _).mp (show g.matchesRound source = true from h)
  obtain ⟨now, active⟩ := armedGoal_some armed
  have valid := shaped.valid goal now
  simp only [Bool.and_eq_true, beq_iff_eq] at same
  obtain ⟨⟨id, revision⟩, round⟩ := same
  have hid : Json.stringField source "goalId" = some goal.id := by
    cases hf : Json.stringField source "goalId" with
    | none => rw [hf] at id; exact absurd id.symm valid.id
    | some found => rw [hf] at id; exact congrArg some id
  have hrevision : Json.optUintField source "revision" = some goal.revision := by
    cases hf : Json.optUintField source "revision" with
    | none =>
        rw [hf] at revision
        have := valid.revision
        simp only [Option.getD_none] at revision
        omega
    | some found => rw [hf] at revision; exact congrArg some revision
  have hround : Json.optUintField source "round" = some (g.state.roundsStarted + 1) := by
    cases hf : Json.optUintField source "round" with
    | none => rw [hf] at round; simp at round
    | some found => rw [hf] at round; exact congrArg some round
  have decoded : decodeRound source = .ok ⟨goal.id, goal.revision, g.state.roundsStarted + 1⟩ := by
    simp [decodeRound, hid, hrevision, hround, Sessions.nonEmpty_some, valid.id, Sessions.need, Option.filter, bind,
      Except.bind]
  have within := (((budgeted source hs _ decoded).2 goal now rfl).2 rfl)
  exact ⟨_, decoded, goal, now, active, rfl, rfl, rfl, within⟩

end

/-! The loop behind the fence -/

/-- An event that the goal's projection does not fold. -/
def Quiet (e : LoopEvent) : Prop := e.type ≠ "goal/change" ∧ e.type ≠ "user/message"

theorem quiet_foreign {e : LoopEvent} (foreign : e.Foreign) (change : e.type ≠ "goal/change") : Quiet e :=
  ⟨change, fun h => foreign (by rw [h]; simp [loopTypes])⟩

theorem mem_of_keeps {messages batch : List Json} (h : keeps messages batch = true) :
    messages.length ≤ batch.length ∧ ∀ m ∈ messages, m ∈ batch := by
  simp only [keeps, Bool.and_eq_true, decide_eq_true_eq, List.all_eq_true] at h
  refine ⟨h.1, fun m hm => ?_⟩
  obtain ⟨n, hn, same⟩ := List.any_eq_true.mp (h.2 m hm)
  rw [Json.eq_of_same m n same]
  exact hn

/-- A move keeps of the batch behind the fence what it had, or it appends its next message. -/
theorem moved_batch {success : Bool} {log : Log} {a : AgentState} {p : Agent.Phase} {o : Agent.Outcome} {m : Move} {fenced : Bool}
    (h : Agent.Moved success log a p o m)
    (decision : ∀ messages, o = .decision false messages →
      fenced = true ∧ keeps (goalMessages messages) (goalMessages p.hands) = true)
    (events : ∀ events, o = .events events → ∀ e ∈ events, e.type ≠ "goal/change") :
    ((∀ e ∈ m.events, Quiet e) ∧ (batchOf false m.phase).length ≤ (batchOf fenced p).length ∧
      ∀ x ∈ batchOf false m.phase, x ∈ batchOf fenced p) ∨
    ∃ message, m.events = [.userMessage message] ∧
      batchOf fenced p = goalMessages [message] ++ batchOf false m.phase := by
  have spliced : ∀ mutation : InboxMutation, ∀ e ∈ mutation.events, Quiet e := by
    intro mutation e he
    unfold InboxMutation.events at he
    split at he
    · cases he
    · cases List.mem_singleton.mp he
      exact ⟨by simp [LoopEvent.type], by simp [LoopEvent.type]⟩
  have committed : ∀ (t : TurnState) (acc : Llm.StepAccumulator),
      ∀ e ∈ (commitModelOutcome log t.turn t.step acc success).events, Quiet e := by
    intro t acc
    rcases commit_cases log t.turn t.step acc success with ⟨message, hc, _⟩ | ⟨failure, hc⟩ | hc <;>
      rw [hc] <;> simp [Quiet, LoopEvent.type]
  cases h with
  | claimsStep t mutation hm =>
      refine .inl ⟨spliced mutation, ?_⟩
      simp only
      split <;> simp [batchOf, passed]
  | claimsTurn t claimed mutation hm => exact .inl ⟨spliced mutation, by simp [batchOf, passed]⟩
  | decides t proposed messages =>
      obtain ⟨rfl, kept⟩ := decision messages rfl
      obtain ⟨length, mem⟩ := mem_of_keeps kept
      exact .inl ⟨fun _ he => absurd he List.not_mem_nil, length, mem⟩
  | begins t messages _ | prompted t messages =>
      exact .inl ⟨fun _ he => absurd he List.not_mem_nil, le_rfl, fun _ hx => hx⟩
  | starts t messages => exact .inl ⟨by simp [Quiet, LoopEvent.type], le_rfl, fun _ hx => hx⟩
  | prompts t messages events' hf =>
      exact .inl ⟨fun e he => quiet_foreign (hf e he) (events _ rfl e he), le_rfl, fun _ hx => hx⟩
  | requests t events' hf =>
      exact .inl ⟨fun e he => quiet_foreign (hf e he) (events _ rfl e he), le_rfl, fun _ hx => hx⟩
  | admits t message rest =>
      refine .inr ⟨message, rfl, ?_⟩
      simp only [batchOf, passed, Agent.Phase.hands, if_true, goalMessages, ← List.filter_append, List.singleton_append]
  | ends t acc _ _ _ _ | answered t acc _ _ | asks t acc _ _ =>
      exact .inl ⟨committed t acc, by simp [batchOf, passed], by simp [batchOf, passed]⟩
  | _ => exact .inl ⟨by simp [Quiet, LoopEvent.type], by simp [batchOf, passed], by simp [batchOf, passed]⟩

/-- A call writes splices of the inbox, or what another party appends. -/
theorem call_quiet {w w' : World} {c : Agent.Call} (h : w.call c = some w')
    (change : ∀ e, c = .append e → e.type ≠ "goal/change") :
    ∃ events, w'.log = w.log ++ events ∧ ∀ e ∈ events, Quiet e := by
  rcases w.call_spliced h with ⟨events, hl, he⟩ | ⟨e, hc, foreign, hl⟩
  · refine ⟨events, hl, fun e hmem => ?_⟩
    obtain ⟨data, rfl⟩ := he e hmem
    exact ⟨by simp [LoopEvent.type], by simp [LoopEvent.type]⟩
  · refine ⟨[e], hl, fun e' hmem => ?_⟩
    cases List.mem_singleton.mp hmem
    exact quiet_foreign foreign (change e hc)

/-! The invariant -/

namespace GoalLoop

/-- No failure, no message beyond its budget, and behind the fence at most one round, which
is the next one of the current goal. -/
structure Unpoisoned (g : GoalLoop) : Prop where
  shaped : Shaped g.state
  carried : g.world.Carries (Budgeted g.state)
  planned : ∀ m ∈ g.planned, Budgeted g.state m
  fits : ∀ i, ∀ m ∈ g.reserved i, Fits g.state m
  single : ∀ i, (g.reserved i).length ≤ 1
  alone : ∀ i j, g.reserved i ≠ [] → g.reserved j ≠ [] → i = j

variable {g g' : GoalLoop} {w' : World} {i : Nat}

theorem Unpoisoned.of_free (shaped : Shaped g.state) (carried : g.world.Carries (Budgeted g.state))
    (planned : ∀ m ∈ g.planned, Budgeted g.state m) (free : g.Free) : g.Unpoisoned where
  shaped := shaped
  carried := carried
  planned := planned
  fits := fun i m hm => by rw [free i] at hm; cases hm
  single := fun i => by rw [free i]; exact Nat.zero_le 1
  alone := fun i _ hi => absurd (free i) hi

/-- The goal is left alone, and nothing comes to what is behind the fence. -/
theorem Unpoisoned.shrinks (inv : g.Unpoisoned) (state : g'.state = g.state)
    (carried : g'.world.Carries (Budgeted g.state)) (planned : ∀ m ∈ g'.planned, Budgeted g.state m)
    (length : ∀ i, (g'.reserved i).length ≤ (g.reserved i).length)
    (mem : ∀ i, ∀ m ∈ g'.reserved i, m ∈ g.reserved i) : g'.Unpoisoned := by
  have filled : ∀ i, g'.reserved i ≠ [] → g.reserved i ≠ [] := by
    intro i hi empty
    obtain ⟨m, hm⟩ := List.exists_mem_of_ne_nil _ hi
    have := mem i m hm
    rw [empty] at this
    cases this
  refine ⟨?_, ?_, ?_, fun i m hm => ?_, fun i => (length i).trans (inv.single i), fun i j hi hj =>
    inv.alone i j (filled i hi) (filled j hj)⟩
  · rw [state]; exact inv.shaped
  · rw [state]; exact carried
  · rw [state]; exact planned
  · rw [state]; exact inv.fits i m (mem i m hm)

theorem reserved_of_some {d : Drive} (hd : g.world.drives[i]? = some d) :
    g.reserved i = batchOf (g.fenced.contains i) d.phase := by
  rw [reserved, hd]
  rfl

theorem reserved_grown {new : List Drive} (drives : g'.world.drives = g.world.drives ++ new)
    (posted : ∀ d ∈ new, d.phase = .posted) (fenced : g'.fenced = g.fenced) (i : Nat) : g'.reserved i = g.reserved i := by
  simp only [reserved, drives, fenced]
  rcases Nat.lt_or_ge i g.world.drives.length with inside | outside
  · rw [List.getElem?_append_left inside]
  · rw [List.getElem?_append_right outside, List.getElem?_eq_none outside]
    cases hn : new[i - g.world.drives.length]? with
    | none => rfl
    | some d => simp [posted d (List.mem_of_getElem? hn), batchOf, passed]

/-- An advance changes of what is behind the fence only its own drive's part. -/
theorem reserved_advance {o : Agent.Outcome} (h : g.world.advance i o = some w') :
    ∃ d a m, g.world.drives[i]? = some d ∧ Agent.Moved g.world.maxTokensAsSuccess g.world.log a d.phase o m ∧
      w'.log = g.world.log ++ m.events ∧
      (({ g with world := w', fenced := g.fenced.filter (· != i) } : GoalLoop).reserved i = batchOf false m.phase) ∧
      ∀ j, j ≠ i →
        ({ g with world := w', fenced := g.fenced.filter (· != i) } : GoalLoop).reserved j = g.reserved j := by
  obtain ⟨d, a, m, hd, _, moved, cases_⟩ := g.world.advance_cases h
  have grown : ∃ new, w'.drives = g.world.drives.set i { d with phase := m.phase } ++ new ∧
      (∀ d ∈ new, d.phase = .posted) ∧ w'.log = g.world.log ++ m.events := by
    rcases cases_ with rfl | ⟨_, rfl⟩
    · exact ⟨[], by simp [World.apply], by simp, rfl⟩
    · unfold World.rewake
      split
      · rcases (g.world.apply i d m).kick_cases d.agent with hk | ⟨b, _, _, hk⟩ <;> rw [hk]
        · exact ⟨[], by simp [World.apply], by simp, rfl⟩
        · exact ⟨[{ agent := d.agent }], by simp [World.apply], by simp, rfl⟩
      · exact ⟨[], by simp [World.apply], by simp, rfl⟩
  obtain ⟨new, drives, posted, log⟩ := grown
  let applied : GoalLoop := { g with
    world := { w' with drives := g.world.drives.set i { d with phase := m.phase } }
    fenced := g.fenced.filter (· != i) }
  have same (j : Nat) :
      ({ g with world := w', fenced := g.fenced.filter (· != i) } : GoalLoop).reserved j = applied.reserved j := by
    refine reserved_grown ?_ posted ?_ j
    exacts [drives, rfl]
  have inside := (List.getElem?_eq_some_iff.mp hd).1
  refine ⟨d, a, m, hd, moved, log, ?_, fun j other => ?_⟩
  · have own : applied.world.drives[i]? = some { d with phase := m.phase } := by simp [applied, inside]
    rw [same, reserved_of_some own]
    simp [applied]
  · rw [same]
    simp only [reserved, applied, List.getElem?_set_ne (Ne.symm other)]
    have kept : (g.fenced.filter (· != i)).contains j = g.fenced.contains j := by
      simp [List.contains_eq_mem, other]
    rw [kept]

theorem Unpoisoned.advance (inv : g.Unpoisoned) {o : Agent.Outcome} (h : g.world.advance i o = some w')
    (decision : ∀ messages, o = .decision false messages → g.fenced.contains i = true ∧
      ∀ d ∈ g.world.drives[i]?, keeps (goalMessages messages) (goalMessages d.phase.hands) = true)
    (events : ∀ events, o = .events events → ∀ e ∈ events, e.type ≠ "goal/change")
    (brought : ∀ x ∈ o.brought, Budgeted g.state x) :
    ({ g with world := w', fenced := g.fenced.filter (· != i) } : GoalLoop).Unpoisoned := by
  obtain ⟨d, a, m, hd, moved, log, own, others⟩ := reserved_advance h
  have carried := inv.carried.advance brought h
  have before := reserved_of_some hd
  generalize hg : ({ g with world := w', fenced := g.fenced.filter (· != i) } : GoalLoop) = g' at own others ⊢
  have world : g'.world = w' := by rw [← hg]
  have planned : g'.planned = g.planned := by rw [← hg]
  rw [← world] at carried
  rcases moved_batch moved (fun messages ho => ⟨(decision messages ho).1, (decision messages ho).2 d hd⟩) events with
    ⟨quiet, length, mem⟩ | ⟨message, appended, batch⟩
  · have state : g'.state = g.state := by
      rw [GoalLoop.state, world, log, goalOf_quiet quiet]
      rfl
    rw [← own, ← before] at length
    refine inv.shrinks state carried (by rw [planned]; exact inv.planned) (fun j => ?_) fun j x hx => ?_
    · by_cases same : j = i
      · exact same ▸ length
      · exact le_of_eq (congrArg _ (others j same))
    · by_cases same : j = i
      · subst same
        rw [before]
        exact mem x (own ▸ hx)
      · exact others j same ▸ hx
  · have state : g'.state = goalOf (g.world.log ++ [.userMessage message]) := by
      rw [GoalLoop.state, world, log, appended]
    rw [goalOf_message inv.shaped.healthy] at state
    rw [← before, ← own] at batch
    cases hs : goalSource message with
    | none =>
        rw [hs] at state
        have plain : goalMessages [message] = [] := by simp [goalMessages, hs]
        rw [plain, List.nil_append] at batch
        refine inv.shrinks state carried (by rw [planned]; exact inv.planned) (fun j => ?_) fun j x hx => ?_
        · by_cases same : j = i
          · subst same
            rw [batch]
          · exact le_of_eq (congrArg _ (others j same))
        · by_cases same : j = i
          · subst same
            exact batch ▸ hx
          · exact others j same ▸ hx
    | some source =>
        have goal : goalMessages [message] = [message] := by simp [goalMessages, hs]
        rw [goal] at batch
        have first : message ∈ g.reserved i := by rw [batch]; exact List.mem_append_left _ List.mem_cons_self
        obtain ⟨r, decoded, admissible⟩ := inv.fits i message first source hs
        have applied : applyRound g.state source = .ok { g.state with roundsStarted := r.round } := by
          simp [applyRound, decoded, admissible, Sessions.ensure, bind, Except.bind]
        have next : g'.state = { g.state with roundsStarted := r.round } := by
          rw [state, hs]
          simp only [Option.elim_some]
          rw [show goalOf g.world.log = g.state from rfl, applied]
          rfl
        have budgeted : ∀ m, Budgeted g.state m → Budgeted g'.state m := by
          rw [next]
          exact fun m hm => hm.congr rfl rfl
        refine .of_free ?_ (carried.mono budgeted) (fun m hm => budgeted m (inv.planned m (planned ▸ hm))) fun j => ?_
        · rw [next]
          exact inv.shaped.round r.round
        · by_cases same : j = i
          · subst same
            have single := inv.single j
            rw [batch] at single
            simpa using single
          · rw [others j same]
            by_contra filled
            exact same (inv.alone j i filled (List.ne_nil_of_mem first))

theorem Unpoisoned.commit (inv : g.Unpoisoned) {op : GoalOp} {draws : Draws} (drawn : Drawn g.state draws op)
    (undisturbed : (g.session.change draws op).toBool = true → g.Free) : (g.operate op draws).Unpoisoned := by
  unfold GoalLoop.operate
  cases hc : g.session.change draws op with
  | error e => exact inv
  | ok c =>
      obtain ⟨state, hs, _, legal, commits⟩ := change_cases hc
      cases (show some g.state = some state from hs)
      obtain ⟨state', folds⟩ := commits_folds inv.shaped legal drawn commits
      obtain ⟨change, decoded, applied⟩ := folds.accepted
      have next : goalOf (g.world.log ++ [.other "goal/change" c.data]) = state' := by
        rw [goalOf_append, show goalOf g.world.log = g.state from rfl]
        refine (GoalProjectionState.drive_change rfl inv.shaped.healthy).trans ?_
        simp only [LoopEvent.record, LoopEvent.data]
        rw [decoded, Sessions.except_ok_bind, applied]
        rfl
      have budgeted : ∀ m, Budgeted g.state m → Budgeted state' m :=
        fun m hm => hm.advances (applyChange_advances applied)
      have free := undisturbed (by rw [hc]; rfl)
      have inbox : inboxOf (g.world.log ++ [.other "goal/change" c.data]) = inboxOf g.world.log :=
        inboxOf_append (by simp [LoopEvent.type])
      refine .of_free ?_ ⟨?_, ?_, ?_⟩ ?_ free
      · exact (next.symm ▸ folds.shaped : Shaped (goalOf _))
      · simp only [GoalLoop.state, next, inbox]
        exact (inv.carried.mono budgeted).queued
      · simp only [GoalLoop.state, next]
        exact (inv.carried.mono budgeted).held
      · simp only [GoalLoop.state, next]
        exact (inv.carried.mono budgeted).seeds
      · simp only [GoalLoop.state, next]
        exact fun m hm => budgeted m (inv.planned m hm)

theorem Unpoisoned.call (inv : g.Unpoisoned) {c : Agent.Call} (h : g.world.call c = some w')
    (change : ∀ e, c = .append e → e.type ≠ "goal/change") (brought : ∀ m ∈ g.world.brought c, Budgeted g.state m)
    {planned : Option Json} (kept : ∀ m ∈ planned, m ∈ g.planned) :
    ({ g with world := w', planned } : GoalLoop).Unpoisoned := by
  obtain ⟨events, log, quiet⟩ := call_quiet h change
  obtain ⟨new, drives, posted⟩ := (World.Grown.call h).drives
  have state : ({ g with world := w', planned } : GoalLoop).state = g.state := by
    simp only [GoalLoop.state, log]
    exact goalOf_quiet quiet
  have reserved (i : Nat) : ({ g with world := w', planned } : GoalLoop).reserved i = g.reserved i := by
    refine reserved_grown ?_ posted ?_ i
    exacts [drives, rfl]
  exact inv.shrinks state (inv.carried.call brought h) (fun m hm => inv.planned m (kept m hm))
    (fun i => le_of_eq (congrArg _ (reserved i))) fun i m hm => reserved i ▸ hm

theorem Unpoisoned.disarm (inv : g.Unpoisoned) : g.disarm.Unpoisoned := by
  unfold GoalLoop.disarm
  split
  · exact inv.shrinks rfl inv.carried inv.planned (fun _ => le_rfl) fun _ _ hm => hm
  · exact inv

theorem Unpoisoned.plan (inv : g.Unpoisoned) {draws : Draws} (h : g.plan draws = some g')
    (undisturbed : g.Undisturbed (.plan draws)) : g'.Unpoisoned := by
  unfold GoalLoop.plan at h
  split at h
  · cases h
  · obtain ⟨goal, armed, rfl⟩ := Option.map_eq_some_iff.mp h
    split
    · next exhausted => exact inv.commit trivial fun _ => undisturbed ⟨goal, armed, exhausted⟩
    · next budget =>
        refine inv.shrinks rfl inv.carried (fun m hm => ?_) (fun _ => le_rfl) fun _ _ hm => hm
        cases hm
        exact roundMessage_budgeted inv.shaped (armedGoal_some armed).1 (Nat.lt_of_not_le budget)

theorem Unpoisoned.send (inv : g.Unpoisoned) {refused : Bool} (h : g.send refused = some g') : g'.Unpoisoned := by
  obtain ⟨message, planned, h⟩ := Option.bind_eq_some_iff.mp h
  split at h
  · cases h
    have disarmed := inv.disarm
    exact disarmed.shrinks rfl disarmed.carried (fun m hm => by cases hm) (fun _ => le_rfl) fun _ _ hm => hm
  · obtain ⟨w', hw, rfl⟩ := Option.map_eq_some_iff.mp h
    refine inv.call hw (fun e he => by cases he) (fun m hm => ?_) fun m hm => by cases hm
    cases List.mem_singleton.mp hm
    exact inv.planned message planned

theorem Unpoisoned.fence (inv : g.Unpoisoned) (h : g.fence i = some g') (undisturbed : g.Undisturbed (.fence i)) :
    g'.Unpoisoned := by
  obtain ⟨d, hd, h⟩ := Option.bind_eq_some_iff.mp h
  split at h
  · next t proposed hp =>
      split at h
      · cases h
      · next unfenced =>
          split at h
          · next valid =>
              cases h
              have others : ∀ j, j ≠ i →
                  ({ g with fenced := i :: g.fenced } : GoalLoop).reserved j = g.reserved j := by
                intro j other
                have kept : (i :: g.fenced).contains j = g.fenced.contains j := by
                  simp [List.contains_eq_mem, other]
                simp only [GoalLoop.reserved, kept]
              have own : ({ g with fenced := i :: g.fenced } : GoalLoop).reserved i = goalMessages proposed := by
                rw [reserved_of_some (g := { g with fenced := i :: g.fenced }) hd, hp]
                simp [batchOf, passed, Agent.Phase.hands]
              by_cases empty : goalMessages proposed = []
              · refine inv.shrinks rfl inv.carried inv.planned (fun j => ?_) fun j m hm => ?_
                · by_cases same : j = i
                  · rw [same, own, empty]
                    exact Nat.zero_le _
                  · exact le_of_eq (congrArg _ (others j same))
                · by_cases same : j = i
                  · rw [same, own, empty] at hm
                    cases hm
                  · exact others j same ▸ hm
              · obtain ⟨one, free⟩ := undisturbed d hd (by rw [hp]; exact empty)
                rw [hp] at one
                have nothing : ∀ j, j ≠ i →
                    ({ g with fenced := i :: g.fenced } : GoalLoop).reserved j = [] :=
                  fun j other => (others j other).trans (free j)
                refine ⟨inv.shaped, inv.carried, inv.planned, fun j m hm => ?_, fun j => ?_, fun j k hj hk => ?_⟩
                · by_cases same : j = i
                  · rw [same, own] at hm
                    have held : m ∈ proposed := List.mem_of_mem_filter hm
                    have budgeted := inv.carried.held d (List.mem_of_getElem? hd) m (by rw [hp]; exact held)
                    exact matchesRound_fits inv.shaped budgeted (List.all_eq_true.mp valid m held)
                  · rw [nothing j same] at hm
                    cases hm
                · by_cases same : j = i
                  · rw [same, own]
                    exact le_of_eq one
                  · rw [nothing j same]
                    exact Nat.zero_le _
                · by_contra differ
                  by_cases same : j = i
                  · exact hk (nothing k fun h => differ (same.trans h.symm))
                  · exact hj (nothing j same)
          · obtain ⟨w', hw, rfl⟩ := Option.map_eq_some_iff.mp h
            have rejected := inv.advance hw (fun _ ho => by cases ho) (fun _ ho => by cases ho)
              (fun _ hx => absurd hx List.not_mem_nil)
            have kept : g.fenced.filter (· != i) = g.fenced :=
              List.filter_eq_self.mpr fun j hj => by
                have : j ≠ i := fun same => unfenced (same ▸ hj)
                simpa using this
            rw [kept] at rejected
            exact rejected
  · cases h

theorem plain_of_empty {messages : List Json} (h : (goalMessages messages).isEmpty = true) :
    ∀ m ∈ messages, goalSource m = none := by
  intro m hm
  by_contra found
  have kept : m ∈ goalMessages messages :=
    List.mem_filter.mpr ⟨hm, Option.isSome_iff_ne_none.mpr found⟩
  rw [List.isEmpty_iff.mp h] at kept
  cases kept

theorem permits_call {c : Agent.Call} (h : g.permits (.call c) = true) :
    (∀ e, c = .append e → e.type ≠ "goal/change") ∧ ∀ m ∈ g.world.brought c, goalSource m = none := by
  cases c with
  | append event =>
      refine ⟨fun e he => ?_, fun m hm => absurd hm List.not_mem_nil⟩
      cases he
      simpa [permits] using h
  | _ => exact ⟨fun _ he => (by cases he), plain_of_empty h⟩

theorem Unpoisoned.permitted (inv : g.Unpoisoned) {o : Agent.Outcome} (permitted : g.permits (.advance i o) = true)
    (h : g.world.advance i o = some w') :
    ({ g with world := w', fenced := g.fenced.filter (· != i) } : GoalLoop).Unpoisoned := by
  refine inv.advance h (fun messages ho => ?_) (fun events ho => ?_) fun x hx => ?_
  · subst ho
    obtain ⟨fenced, kept⟩ := Bool.and_eq_true_iff.mp permitted
    refine ⟨fenced, fun d hd => ?_⟩
    rw [Option.mem_def.mp hd] at kept
    exact kept
  · subst ho
    intro e he
    simpa using List.all_eq_true.mp permitted e he
  · cases o with
    | context messages => exact budgeted_plain (plain_of_empty permitted x hx)
    | decision reject messages =>
        cases reject with
        | true => cases hx
        | false =>
            obtain ⟨d, a, m, hd, _⟩ := g.world.advance_cases h
            obtain ⟨_, kept⟩ := Bool.and_eq_true_iff.mp permitted
            rw [hd] at kept
            cases hs : goalSource x with
            | none => exact budgeted_plain hs
            | some source =>
                have goal : x ∈ goalMessages messages := List.mem_filter.mpr ⟨hx, by simp [hs]⟩
                have held := List.mem_of_mem_filter ((mem_of_keeps kept).2 x goal)
                exact inv.carried.held d (List.mem_of_getElem? hd) x held
    | _ => cases hx

theorem Unpoisoned.restart (inv : g.Unpoisoned) : ({ g with
    world := World.fresh g.world.log g.world.maxTokensAsSuccess
    activation := none
    competing := false
    planned := none
    fenced := [] } : GoalLoop).Unpoisoned :=
  .of_free inv.shaped
    ⟨inv.carried.queued, fun d hd => absurd hd List.not_mem_nil, fun a ha => absurd ha List.not_mem_nil⟩
    (fun _ hm => by cases hm) fun _ => rfl

/-- A step of the run keeps the invariant. -/
theorem Unpoisoned.next (inv : g.Unpoisoned) {a : GoalLoopAct} (h : g.next a = some g') (timely : g.Timely a)
    (undisturbed : g.Undisturbed a) : g'.Unpoisoned := by
  cases a with
  | operate op draws => cases h; exact inv.commit timely undisturbed
  | disarm => cases h; exact inv.disarm
  | compete on => cases h; exact inv.shrinks rfl inv.carried inv.planned (fun _ => le_rfl) fun _ _ hm => hm
  | plan draws => exact inv.plan h undisturbed
  | send refused => exact inv.send h
  | fence i => exact inv.fence h undisturbed
  | loop act =>
      cases act with
      | call c =>
          simp only [GoalLoop.next] at h
          split at h
          · next permitted =>
              obtain ⟨w', hw, rfl⟩ := Option.map_eq_some_iff.mp h
              obtain ⟨change, plain⟩ := permits_call permitted
              exact inv.call hw change (fun m hm => budgeted_plain (plain m hm)) fun _ hm => hm
          · cases h
      | advance i outcome =>
          simp only [GoalLoop.next] at h
          split at h
          · next permitted =>
              obtain ⟨w', hw, rfl⟩ := Option.map_eq_some_iff.mp h
              exact inv.permitted permitted hw
          · cases h
  | restart => cases h; exact inv.restart

theorem unpoisoned_start {success : Bool} (world : g.world = World.fresh [] success) (planned : g.planned = none) :
    g.Unpoisoned := by
  refine .of_free ?_ ⟨?_, ?_, ?_⟩ (fun m hm => by rw [planned] at hm; cases hm) fun i => ?_
  · rw [GoalLoop.state, world]
    exact shaped_start
  · rw [world]
    intro target m hm
    cases target <;> cases hm
  · rw [world]
    exact fun d hd => absurd hd List.not_mem_nil
  · rw [world]
    exact fun a ha => absurd ha List.not_mem_nil
  · rw [reserved, world]
    rfl

end GoalLoop

/-- While no operation commits between a fence and the append behind it, the projection
never fails, and each round named the goal as it was when it was appended. -/
theorem goal_never_poisoned {g : GoalLoop}
    (reached : goalLoop.Reached (fun g a => g.Timely a ∧ g.Undisturbed a) g) :
    g.state.failure = none ∧ RoundsCurrent g.world.log := by
  have inv : g.Unpoisoned := by
    refine reached.invariant (I := GoalLoop.Unpoisoned) ?_ ?_
    · rintro g ⟨success, world, planned, _⟩
      exact GoalLoop.unpoisoned_start world planned
    · rintro g a g' _ inv h ⟨timely, undisturbed⟩
      exact inv.next h timely undisturbed
  exact ⟨inv.shaped.healthy, rounds_current inv.shaped.healthy⟩

def newLoop : GoalLoop := { id := "s", world := World.fresh [] false }

def shipGoal : GoalSnapshot := { id := mintGoalId { now := 1 }, objective := "ship", maxGoalRounds := 3 }

def firstDrive (outcomes : List Agent.Outcome) : List GoalLoopAct := outcomes.map fun o => .loop (.advance 0 o)

/-- A goal is created, its first round queued, claimed and fenced. -/
def toFence : List GoalLoopAct :=
  [.operate (.create "ship" (some 3)) { now := 1 }, .loop (.call .create), .plan { now := 2 }, .send false] ++
    firstDrive [.ok, .ok, .ok, .ok, .ok, .ok, .context []] ++ [.fence 0]

/-- The listener behind the fence returns, and the batch is appended. -/
def toAppend : List GoalLoopAct := firstDrive [.decision false [roundMessage shipGoal 1], .ok, .ok, .ok, .ok]

def timely? (g : GoalLoop) : GoalLoopAct → Bool
  | .operate (.create _ _) draws => decide (0 ≤ draws.now) && !g.state.seenIds.contains (mintGoalId draws)
  | _ => true

def free? (g : GoalLoop) : Bool := (List.range g.world.drives.length).all fun i => (g.reserved i).isEmpty

def undisturbed? (g : GoalLoop) : GoalLoopAct → Bool
  | .operate _ _ | .plan _ => free? g
  | .fence i => free? g && (g.world.drives[i]?).all fun d => (goalMessages d.phase.hands).length == 1
  | _ => true

theorem timely_of_check {g : GoalLoop} {a : GoalLoopAct} (h : timely? g a = true) : g.Timely a := by
  cases a with
  | operate op draws =>
      cases op with
      | create objective maxRounds =>
          simp only [timely?, Bool.and_eq_true, Bool.not_eq_true', decide_eq_true_eq, List.contains_eq_mem,
            decide_eq_false_iff_not] at h
          exact h
      | _ => trivial
  | _ => trivial

theorem free_of_check {g : GoalLoop} (h : free? g = true) : g.Free := by
  intro i
  rcases Nat.lt_or_ge i g.world.drives.length with inside | outside
  · exact List.isEmpty_iff.mp (List.all_eq_true.mp h i (List.mem_range.mpr inside))
  · rw [GoalLoop.reserved, List.getElem?_eq_none outside]
    rfl

theorem undisturbed_of_check {g : GoalLoop} {a : GoalLoopAct} (h : undisturbed? g a = true) : g.Undisturbed a := by
  cases a with
  | operate op draws => exact fun _ => free_of_check h
  | plan draws => exact fun _ => free_of_check h
  | fence i =>
      obtain ⟨free, one⟩ := Bool.and_eq_true_iff.mp h
      intro d hd _
      rw [Option.mem_def.mp hd] at one
      exact ⟨by simpa using one, free_of_check free⟩
  | _ => trivial

/-- The round is appended with nothing in between. -/
theorem goal_never_poisoned_appended : ∃ g : GoalLoop, (admitted g.world.log).length = 1 ∧
    g.state.failure = none ∧ RoundsCurrent g.world.log := by
  have played : (System.follow GoalLoop.next (fun g a => timely? g a && undisturbed? g a) newLoop
      (toFence ++ toAppend)).any (fun g => (admitted g.world.log).length == 1) = true := by decide +kernel
  obtain ⟨g, hg, appended⟩ := (Option.any_eq_true _ _).mp played
  have reached := System.follow_reached (S := goalLoop) (P := fun g a => g.Timely a ∧ g.Undisturbed a)
    (fun _ _ _ h => h) (fun _ _ h => by
      obtain ⟨timely, undisturbed⟩ := Bool.and_eq_true_iff.mp h
      exact ⟨timely_of_check timely, undisturbed_of_check undisturbed⟩) hg (.start ⟨false, rfl, rfl, rfl⟩)
  exact ⟨g, by simpa using appended, goal_never_poisoned reached⟩

/-- The goal is paused while a listener behind the fence waits, and its round poisons the fold. -/
theorem goal_poisoned : ¬ ∀ g : GoalLoop, goalLoop.Reached (fun g a => g.Timely a) g →
    g.state.failure = none := by
  intro healthy
  have played : (System.follow GoalLoop.next timely? newLoop
      (toFence ++ [.operate (.pause shipGoal.ref) { now := 3 }] ++ toAppend)).any
        (fun g => g.state.failure.isSome) = true := by decide +kernel
  obtain ⟨g, hg, failed⟩ := (Option.any_eq_true _ _).mp played
  have reached := System.follow_reached (S := goalLoop) (P := fun g a => g.Timely a) (fun _ _ _ h => h)
    (fun _ _ => timely_of_check) hg (.start ⟨false, rfl, rfl, rfl⟩)
  rw [healthy g reached] at failed
  cases failed

end Araya.Goals
