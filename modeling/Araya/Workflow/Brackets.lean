import Araya.Util.Strings
import Araya.Workflow.Service
import Mathlib.Data.List.Nodup

/-!
Runs and their agents in the log. While the stream of its worker is open a run keeps a
record for each agent that is at work, and each child that settles closes its record; what
is still open when the stream ends is closed behind the end of the run.
-/

namespace Araya.Workflow

/-! The log -/

def WorkflowEvent.run : WorkflowEvent → String
  | .runStart id _ | .agentStart id _ _ _ | .agentEnd id _ _ _ | .runEnd id _ _ => id

/-- The agent of a record. -/
def WorkflowEvent.agent : WorkflowEvent → Option Nat
  | .agentStart _ seq _ _ | .agentEnd _ seq _ _ => some seq
  | .runStart _ _ | .runEnd _ _ _ => none

def WorkflowEvent.isStart : WorkflowEvent → Bool
  | .agentStart .. => true
  | _ => false

def WorkflowEvent.isEnd : WorkflowEvent → Bool
  | .agentEnd .. => true
  | _ => false

namespace Entry

def run : Entry → Option String
  | .recorded _ ev => some ev.run
  | .other .. => none
  | .delegated id _ => some id

/-- The agent that was started, ended or delegated. -/
def agent : Entry → Option Nat
  | .recorded _ ev => ev.agent
  | .other .. => none
  | .delegated _ seq => some seq

def event : Entry → Option WorkflowEvent
  | .recorded _ ev => some ev
  | _ => none

end Entry

/-- What the log has of a run, in order. -/
def ofRun (id : String) (log : List Entry) : List Entry := log.filter (·.run == some id)

def eventsOf (id : String) (log : List Entry) : List WorkflowEvent := (ofRun id log).filterMap Entry.event

/-- The records of one agent. -/
def agentEvents (id : String) (seq : Nat) (log : List Entry) : List WorkflowEvent :=
  (eventsOf id log).filter (·.agent == some seq)

def starts (id : String) (log : List Entry) : Nat := (eventsOf id log).countP (·.isStart)
def ends (id : String) (log : List Entry) : Nat := (eventsOf id log).countP (·.isEnd)

/-- A run begins with its first record, and its last one closes it over agents that have all ended. -/
structure Bracketed (log : List Entry) (r : RunState) : Prop where
  between : ∃ name agents closing, ofRun r.id log = .recorded r.session (.runStart r.id name) :: agents ++ closing ∧
    (∀ e ∈ agents, e.agent.isSome = true) ∧
    (r.result = none ∧ closing = [] ∨
      ∃ result, r.result = some result ∧
        closing = [.recorded r.session (.runEnd r.id result.stopReason result.agentsStarted)])
  paired : ∀ seq, agentEvents r.id seq log = [] ∨
    (∃ label phase outcome child, agentEvents r.id seq log =
      [.agentStart r.id seq label phase, .agentEnd r.id seq outcome child]) ∨
    (r.result = none ∧ ∃ label phase, agentEvents r.id seq log = [.agentStart r.id seq label phase])

/-- The property of a run: its brackets, the agents in flight and the calls that were admitted. -/
structure Kept (config : Config) (log : List Entry) (r : RunState) : Prop where
  bracketed : Bracketed log r
  flight : starts r.id log ≤ ends r.id log + config.maxConcurrency
  admitted : starts r.id log + r.queue.length ≤ r.agentsStarted ∧ r.agentsStarted ≤ r.maxTotal

/-- The stream of a worker ends while no agent of its run is at work. -/
def Settled (s : WorkflowService) : Op → Prop
  | .ended n _ => ∀ r, s.runs[n]? = some r → r.calls = []
  | _ => True

/-- A process begins without runs; its sessions may have logs. -/
def workflows : System WorkflowService Op where
  start s := s.nextRun = 1 ∧ s.runs = [] ∧ s.live = [] ∧ ∀ e ∈ s.log, e.run = none
  step s op s' := s.next op = some s'

/-! Growth of the log -/

section
variable {id : String} {log more : List Entry} {e : Entry} {ev : WorkflowEvent} {session : String} {seq : Nat}

theorem ofRun_append : ofRun id (log ++ more) = ofRun id log ++ ofRun id more := List.filter_append ..

theorem ofRun_foreign (foreign : ∀ e ∈ more, e.run ≠ some id) : ofRun id (log ++ more) = ofRun id log := by
  have none : ofRun id more = [] := List.filter_eq_nil_iff.mpr fun e he same => foreign e he (beq_iff_eq.mp same)
  rw [ofRun_append, none, List.append_nil]

theorem ofRun_concat (own : e.run = some id) : ofRun id (log ++ [e]) = ofRun id log ++ [e] := by
  have one : ofRun id [e] = [e] := List.filter_cons_of_pos (beq_iff_eq.mpr own)
  rw [ofRun_append, one]

theorem eventsOf_concat (own : ev.run = id) :
    eventsOf id (log ++ [.recorded session ev]) = eventsOf id log ++ [ev] := by
  have mine : (Entry.recorded session ev).run = some id := congrArg some own
  rw [eventsOf, ofRun_concat mine, List.filterMap_append]
  rfl

theorem eventsOf_delegated : eventsOf id (log ++ [.delegated id seq]) = eventsOf id log := by
  rw [eventsOf, ofRun_concat rfl, List.filterMap_append]
  exact List.append_nil _

theorem agentEvents_concat (own : ev.run = id) : agentEvents id seq (log ++ [.recorded session ev]) =
    agentEvents id seq log ++ if ev.agent = some seq then [ev] else [] := by
  rw [agentEvents, eventsOf_concat own, List.filter_append, agentEvents]
  congr 1
  by_cases same : ev.agent = some seq <;> simp [same]

theorem starts_concat (own : ev.run = id) :
    starts id (log ++ [.recorded session ev]) = starts id log + if ev.isStart then 1 else 0 := by
  rw [starts, eventsOf_concat own, List.countP_append, starts, List.countP_singleton]

theorem ends_concat (own : ev.run = id) :
    ends id (log ++ [.recorded session ev]) = ends id log + if ev.isEnd then 1 else 0 := by
  rw [ends, eventsOf_concat own, List.countP_append, ends, List.countP_singleton]

end

/-! The account of a run -/

/-- What a run keeps while its stream is open, and has settled once it is over. -/
structure Account (limit : Nat) (log : List Entry) (r : RunState) : Prop where
  apart : (r.calls.map (·.seq)).Nodup
  drawn : ∀ c ∈ r.calls, c.seq ≤ r.nextSeq
  flight : r.inflight = r.calls.length
  room : r.inflight ≤ limit
  ceiling : r.agentsStarted ≤ r.maxTotal
  shown : r.nextSeq + r.queue.length ≤ r.agentsStarted
  started : starts r.id log = r.nextSeq
  finished : ends r.id log + r.calls.length = r.nextSeq
  fresh : ∀ seq, r.nextSeq < seq → agentEvents r.id seq log = []
  open_ : ∀ c ∈ r.calls, ∃ label phase, agentEvents r.id c.seq log = [.agentStart r.id c.seq label phase]
  closed : ∀ seq, seq ∉ r.calls.map (·.seq) → agentEvents r.id seq log = [] ∨
    ∃ label phase outcome child, agentEvents r.id seq log =
      [.agentStart r.id seq label phase, .agentEnd r.id seq outcome child]
  pumping : r.pumping = true ↔ r.result = none
  ended : r.pumping = false → r.calls = []
  between : ∃ name agents closing, ofRun r.id log = .recorded r.session (.runStart r.id name) :: agents ++ closing ∧
    (∀ e ∈ agents, e.agent.isSome = true) ∧
    (r.result = none ∧ closing = [] ∨
      ∃ result, r.result = some result ∧
        closing = [.recorded r.session (.runEnd r.id result.stopReason result.agentsStarted)])

/-- A log that grew by entries of one run. -/
def Grows (id : String) (log log' : List Entry) : Prop := ∃ more, log' = log ++ more ∧ ∀ e ∈ more, e.run = some id

theorem Grows.refl (id : String) (log : List Entry) : Grows id log log :=
  ⟨[], (List.append_nil _).symm, fun _ h => (by cases h)⟩

theorem Grows.concat {id : String} {e : Entry} (own : e.run = some id) (log : List Entry) : Grows id log (log ++ [e]) :=
  ⟨[e], rfl, fun _ h => List.mem_singleton.mp h ▸ own⟩

theorem Grows.trans {id : String} {log log' log'' : List Entry} (h : Grows id log log') (h' : Grows id log' log'') :
    Grows id log log'' := by
  obtain ⟨more, rfl, own⟩ := h
  obtain ⟨more', rfl, own'⟩ := h'
  exact ⟨more ++ more', List.append_assoc .., fun e he => (List.mem_append.mp he).elim (own e) (own' e)⟩

/-- What a step of a run leaves: its account, over a log that grew by entries of it. -/
structure Advances (limit : Nat) (log : List Entry) (r : RunState) (p : RunState × List Entry) : Prop where
  id : p.1.id = r.id
  grows : Grows r.id log p.2
  account : Account limit p.2 p.1

section
variable {limit : Nat} {log more : List Entry} {r : RunState}

theorem Account.kept {config : Config} (h : Account config.maxConcurrency log r) : Kept config log r where
  bracketed := {
    between := h.between
    paired := by
      intro seq
      by_cases working : seq ∈ r.calls.map (·.seq)
      · obtain ⟨c, hc, rfl⟩ := List.mem_map.mp working
        refine .inr (.inr ⟨h.pumping.mp ?_, h.open_ c hc⟩)
        cases live : r.pumping with
        | true => rfl
        | false =>
            rw [h.ended live] at hc
            cases hc
      · rcases h.closed seq working with none | ended
        · exact .inl none
        · exact .inr (.inl ended) }
  flight := by
    have finished := h.finished
    have room := h.room
    rw [h.flight] at room
    rw [h.started, ← finished]
    exact Nat.add_le_add_left room _
  admitted := ⟨h.started ▸ h.shown, h.ceiling⟩

/-- Entries of other runs change nothing. -/
theorem Account.frame (h : Account limit log r) (foreign : ∀ e ∈ more, e.run ≠ some r.id) :
    Account limit (log ++ more) r := by
  have same : ofRun r.id (log ++ more) = ofRun r.id log := ofRun_foreign foreign
  have events : eventsOf r.id (log ++ more) = eventsOf r.id log := by rw [eventsOf, same, eventsOf]
  have agents : ∀ seq, agentEvents r.id seq (log ++ more) = agentEvents r.id seq log := by
    intro seq
    rw [agentEvents, events, agentEvents]
  refine { h with started := ?_, finished := ?_, fresh := ?_, open_ := ?_, closed := ?_, between := ?_ }
  · rw [starts, events]
    exact h.started
  · rw [ends, events]
    exact h.finished
  · exact fun seq later => (agents seq).trans (h.fresh seq later)
  · exact fun c hc => (agents c.seq).symm ▸ h.open_ c hc
  · exact fun seq idle => (agents seq).symm ▸ h.closed seq idle
  · exact same.symm ▸ h.between

/-! Steps of a run -/

theorem Account.aside (h : Account limit log r) (transport : Worker) (progress : List Progress) (value : Option Json)
    (error : Option String) (done cancelled bridged stopRequested : Bool) :
    Account limit log { r with transport, progress, value, error, done, cancelled, bridged, stopRequested } where
  apart := h.apart
  drawn := h.drawn
  flight := h.flight
  room := h.room
  ceiling := h.ceiling
  shown := h.shown
  started := h.started
  finished := h.finished
  fresh := h.fresh
  open_ := h.open_
  closed := h.closed
  pumping := h.pumping
  ended := h.ended
  between := h.between

/-- The agents of a run whose stream is open are the end of what the log has of it. -/
theorem Account.between_concat {e : Entry} (h : Account limit log r) (live : r.pumping = true) (own : e.run = some r.id)
    (agent : e.agent.isSome = true) : ∃ name agents,
      ofRun r.id (log ++ [e]) = .recorded r.session (.runStart r.id name) :: agents ∧
        ∀ e ∈ agents, e.agent.isSome = true := by
  obtain ⟨name, agents, closing, all, inner, none | ⟨result, some, -⟩⟩ := h.between
  · refine ⟨name, agents ++ [e], ?_, fun e' he' => ?_⟩
    · rw [ofRun_concat own, all, none.2, List.append_nil]
      rfl
    · rcases List.mem_append.mp he' with old | new
      · exact inner e' old
      · exact List.mem_singleton.mp new ▸ agent
  · rw [h.pumping.mp live] at some
    cases some

theorem startAgent_account {call : Json} {queue : List Json} (h : Account limit log { r with queue := call :: queue })
    (live : r.pumping = true) (room : r.inflight < limit) (id : Json) (request : AgentRequest) (phase : String) :
    Account limit (startAgent r log id request phase).2
      { (startAgent r log id request phase).1 with queue := queue } := by
  have idle : r.nextSeq + 1 ∉ r.calls.map (·.seq) := by
    intro working
    obtain ⟨c, hc, same⟩ := List.mem_map.mp working
    have := h.drawn c hc
    dsimp only at this
    omega
  have grown : (startAgent r log id request phase).2 =
      log ++ [.recorded r.session (.agentStart r.id (r.nextSeq + 1) (display request) phase)] := rfl
  have own : (WorkflowEvent.agentStart r.id (r.nextSeq + 1) (display request) phase).run = r.id := rfl
  have agents : ∀ seq, agentEvents r.id seq (startAgent r log id request phase).2 = agentEvents r.id seq log ++
      if r.nextSeq + 1 = seq then [.agentStart r.id (r.nextSeq + 1) (display request) phase] else [] := by
    intro seq
    rw [grown, agentEvents_concat own]
    simp [WorkflowEvent.agent]
  have others : ∀ seq, r.nextSeq + 1 ≠ seq →
      agentEvents r.id seq (startAgent r log id request phase).2 = agentEvents r.id seq log := by
    intro seq other
    rw [agents, if_neg other, List.append_nil]
  have new : agentEvents r.id (r.nextSeq + 1) (startAgent r log id request phase).2 =
      [.agentStart r.id (r.nextSeq + 1) (display request) phase] := by
    rw [agents, if_pos rfl, h.fresh _ (Nat.lt_succ_self _), List.nil_append]
  have seqs : (startAgent r log id request phase).1.calls.map (·.seq) = r.calls.map (·.seq) ++ [r.nextSeq + 1] :=
    List.map_append
  constructor
  case apart =>
    refine seqs.symm ▸ List.nodup_append.mpr ⟨h.apart, List.nodup_singleton _, fun seq working seq' same eq => ?_⟩
    exact idle (List.mem_singleton.mp same ▸ eq ▸ working)
  case drawn =>
    intro c hc
    rcases List.mem_append.mp hc with old | last
    · exact Nat.le_succ_of_le (h.drawn c old)
    · exact List.mem_singleton.mp last ▸ Nat.le_refl _
  case flight =>
    have flight : r.inflight = r.calls.length := h.flight
    show r.inflight + 1 = (r.calls ++ [_]).length
    rw [List.length_append, flight, List.length_singleton]
  case room => exact room
  case ceiling => exact h.ceiling
  case shown =>
    have shown : r.nextSeq + (queue.length + 1) ≤ r.agentsStarted := h.shown
    show r.nextSeq + 1 + queue.length ≤ r.agentsStarted
    omega
  case started =>
    exact (starts_concat own).trans (congrArg (· + 1) h.started)
  case finished =>
    have finished : ends r.id log + r.calls.length = r.nextSeq := h.finished
    have same : ends r.id (startAgent r log id request phase).2 = ends r.id log := ends_concat own
    show ends r.id (startAgent r log id request phase).2 + (r.calls ++ [_]).length = r.nextSeq + 1
    rw [same, List.length_append, List.length_singleton, ← Nat.add_assoc, finished]
  case fresh =>
    intro seq later
    have beyond : r.nextSeq + 1 < seq := later
    exact (others seq (Nat.ne_of_lt beyond)).trans (h.fresh seq (Nat.lt_of_succ_lt beyond))
  case open_ =>
    intro c hc
    rcases List.mem_append.mp hc with old | last
    · have earlier : r.nextSeq + 1 ≠ c.seq := fun same => idle (same ▸ List.mem_map.mpr ⟨c, old, rfl⟩)
      exact (others c.seq earlier).symm ▸ h.open_ c old
    · cases List.mem_singleton.mp last
      exact ⟨_, _, new⟩
  case closed =>
    intro seq rest
    rw [seqs, List.mem_append, not_or] at rest
    have other : r.nextSeq + 1 ≠ seq := fun same => rest.2 (List.mem_singleton.mpr same.symm)
    exact (others seq other).symm ▸ h.closed seq rest.1
  case pumping => exact h.pumping
  case ended => exact fun ended => absurd (live.symm.trans ended) (by decide)
  case between =>
    have entry : (Entry.recorded r.session (.agentStart r.id (r.nextSeq + 1) (display request) phase)).run = some r.id :=
      rfl
    obtain ⟨name, inner, all, agent⟩ := h.between_concat live entry rfl
    exact ⟨name, inner, [], all.trans (List.append_nil _).symm, agent, .inl ⟨h.pumping.mp live, rfl⟩⟩

/-- A call leaves the queue for good. -/
theorem Account.dequeue {queue : List Json} {call : Json} (h : Account limit log { r with queue := call :: queue }) :
    Account limit log { r with queue := queue } :=
  { h with shown := Nat.le_trans (Nat.add_le_add_left (Nat.le_succ _) _) h.shown }

theorem pumpCalls_advances {queue : List Json} (h : Account limit log { r with queue := queue })
    (live : r.pumping = true) : Advances limit log r (pumpCalls limit queue r log) := by
  induction queue generalizing r log with
  | nil => exact ⟨rfl, .refl .., h⟩
  | cons call queue ih =>
      rw [pumpCalls]
      split
      · next room =>
          split
          · next message _ =>
              obtain ⟨id, grows, account⟩ := ih (r := r.sendErrorReply (idOf call) message)
                (h.dequeue.aside ..) live
              exact ⟨id, grows, account⟩
          · next request phase _ =>
              obtain ⟨id, grows, account⟩ := ih (startAgent_account h live room (idOf call) request phase) live
              exact ⟨id, (Grows.concat rfl log).trans grows, account⟩
      · exact ⟨rfl, .refl .., h⟩

/-- The record of an agent is closed and its coroutine goes. -/
theorem Account.close {call : AgentCall} (h : Account limit log r) (live : r.pumping = true) (working : call ∈ r.calls)
    (outcome child : String) : Account limit (log ++ [.recorded r.session (.agentEnd r.id call.seq outcome child)])
      { r with inflight := r.inflight - 1, calls := r.calls.filter (·.seq != call.seq) } := by
  have own : (WorkflowEvent.agentEnd r.id call.seq outcome child).run = r.id := rfl
  have member : call.seq ∈ r.calls.map (·.seq) := List.mem_map.mpr ⟨call, working, rfl⟩
  have agents : ∀ seq, agentEvents r.id seq (log ++ [.recorded r.session (.agentEnd r.id call.seq outcome child)]) =
      agentEvents r.id seq log ++ if call.seq = seq then [.agentEnd r.id call.seq outcome child] else [] := by
    intro seq
    rw [agentEvents_concat own]
    simp [WorkflowEvent.agent]
  have others : ∀ seq, call.seq ≠ seq →
      agentEvents r.id seq (log ++ [.recorded r.session (.agentEnd r.id call.seq outcome child)]) =
        agentEvents r.id seq log := by
    intro seq other
    rw [agents, if_neg other, List.append_nil]
  have left : (r.calls.filter (·.seq != call.seq)).map (·.seq) = (r.calls.map (·.seq)).erase call.seq := by
    rw [h.apart.erase_eq_filter, List.filter_map]
    rfl
  have fewer : (r.calls.filter (·.seq != call.seq)).length + 1 = r.calls.length := by
    have erased := List.length_erase_add_one member
    rwa [← left, List.length_map, List.length_map] at erased
  constructor
  case apart => exact left.symm ▸ h.apart.erase _
  case drawn => exact fun c hc => h.drawn c (List.mem_filter.mp hc).1
  case flight =>
    have flight := h.flight
    show r.inflight - 1 = (r.calls.filter (·.seq != call.seq)).length
    omega
  case room => exact Nat.le_trans (Nat.sub_le ..) h.room
  case ceiling => exact h.ceiling
  case shown => exact h.shown
  case started => exact (starts_concat own).trans h.started
  case finished =>
    have finished := h.finished
    have more : ends r.id (log ++ [.recorded r.session (.agentEnd r.id call.seq outcome child)]) = ends r.id log + 1 :=
      ends_concat own
    show ends r.id (log ++ _) + (r.calls.filter (·.seq != call.seq)).length = r.nextSeq
    omega
  case fresh =>
    intro seq later
    have earlier : call.seq ≤ r.nextSeq := h.drawn call working
    exact (others seq (Nat.ne_of_lt (Nat.lt_of_le_of_lt earlier later))).trans (h.fresh seq later)
  case open_ =>
    intro c hc
    obtain ⟨still, other⟩ := List.mem_filter.mp hc
    exact (others c.seq fun same => by simp [same] at other).symm ▸ h.open_ c still
  case closed =>
    intro seq rest
    by_cases same : call.seq = seq
    · obtain ⟨label, phase, one⟩ := h.open_ call working
      refine .inr ⟨label, phase, outcome, child, ?_⟩
      rw [agents, if_pos same, ← same, one]
      rfl
    · refine (others seq same).symm ▸ h.closed seq fun working => rest ?_
      exact left.symm ▸ (List.mem_erase_of_ne fun eq => same eq.symm).mpr working
  case pumping => exact h.pumping
  case ended => exact fun ended => absurd (live.symm.trans ended) (by decide)
  case between =>
    have entry : (Entry.recorded r.session (.agentEnd r.id call.seq outcome child)).run = some r.id := rfl
    obtain ⟨name, inner, all, agent⟩ := h.between_concat live entry rfl
    exact ⟨name, inner, [], all.trans (List.append_nil _).symm, agent, .inl ⟨h.pumping.mp live, rfl⟩⟩

/-- A coroutine is at work only while the stream is open. -/
theorem Account.live {call : AgentCall} (h : Account limit log r) (working : call ∈ r.calls) : r.pumping = true := by
  cases live : r.pumping with
  | true => rfl
  | false =>
      rw [h.ended live] at working
      cases working

theorem finishCall_advances {call : AgentCall} (h : Account limit log r) (working : call ∈ r.calls)
    (settled : Except String ChildResult) : Advances limit log r (finishCall limit r log call settled) := by
  have live := h.live working
  have closed := h.close live working (if (childOf settled).isError then "failed" else "completed")
    (childOf settled).child
  obtain ⟨id, grows, account⟩ := pumpCalls_advances (r := { r with
      transport := (r.sendReply call.id (replyOf call.request (childOf settled))).transport
      progress := r.progress ++ [.event (.agentEnd r.id call.seq
        (if (childOf settled).isError then "failed" else "completed") (childOf settled).child)]
      inflight := r.inflight - 1
      calls := r.calls.filter (·.seq != call.seq) }) (closed.aside ..) live
  exact ⟨id, (Grows.concat rfl log).trans grows, account⟩

theorem handleCall_advances (h : Account limit log r) (live : r.pumping = true) (call : Json) :
    Advances limit log r (handleCall limit r log call) := by
  unfold handleCall
  split
  · exact ⟨rfl, .refl .., h.aside ..⟩
  · next room =>
      have admitted : Account limit log { r with agentsStarted := r.agentsStarted + 1, queue := r.queue ++ [call] } := {
        h with
        ceiling := Nat.lt_of_not_le room
        shown := by
          have shown := h.shown
          show r.nextSeq + (r.queue ++ [call]).length ≤ r.agentsStarted + 1
          rw [List.length_append, List.length_singleton]
          omega }
      obtain ⟨id, grows, account⟩ := pumpCalls_advances (r := { r with agentsStarted := r.agentsStarted + 1 }) admitted live
      exact ⟨id, grows, account⟩

theorem handleMessage_advances (h : Account limit log r) (live : r.pumping = true) (message : Json) :
    Advances limit log r (handleMessage limit r log message) := by
  unfold handleMessage
  split
  · exact ⟨rfl, .refl .., h⟩
  · split
    case h_1 => exact handleCall_advances h live message
    case h_2 => exact ⟨rfl, .refl .., h.aside ..⟩
    case h_3 => exact ⟨rfl, .refl .., h.aside ..⟩
    case h_4 => exact ⟨rfl, .refl .., h.aside ..⟩
    case h_5 => exact ⟨rfl, .refl .., h⟩

/-- A coroutine asks for its child. -/
theorem delegate_advances {call : AgentCall} (h : Account limit log r) (working : call ∈ r.calls)
    (begin_ : AgentCall → AgentCall) (same : ∀ c, (begin_ c).seq = c.seq) :
    Advances limit log r ({ r with calls := r.calls.map begin_ }, log ++ [.delegated r.id call.seq]) := by
  have events : eventsOf r.id (log ++ [.delegated r.id call.seq]) = eventsOf r.id log := eventsOf_delegated
  have agents : ∀ seq, agentEvents r.id seq (log ++ [.delegated r.id call.seq]) = agentEvents r.id seq log := by
    intro seq
    rw [agentEvents, events, agentEvents]
  have seqs : (r.calls.map begin_).map (·.seq) = r.calls.map (·.seq) := by
    rw [List.map_map]
    exact List.map_congr_left fun c _ => same c
  refine ⟨rfl, .concat rfl log, ?_⟩
  constructor
  case apart => exact seqs.symm ▸ h.apart
  case drawn =>
    intro c hc
    obtain ⟨c', hc', rfl⟩ := List.mem_map.mp hc
    exact same c' ▸ h.drawn c' hc'
  case flight => exact h.flight.trans (List.length_map ..).symm
  case room => exact h.room
  case ceiling => exact h.ceiling
  case shown => exact h.shown
  case started => exact (congrArg _ events).trans h.started
  case finished =>
    show (eventsOf r.id _).countP _ + (r.calls.map begin_).length = r.nextSeq
    rw [events, List.length_map]
    exact h.finished
  case fresh => exact fun seq later => (agents seq).trans (h.fresh seq later)
  case open_ =>
    intro c hc
    obtain ⟨c', hc', rfl⟩ := List.mem_map.mp hc
    exact (same c').symm ▸ (agents c'.seq).symm ▸ h.open_ c' hc'
  case closed => exact fun seq rest => (agents seq).symm ▸ h.closed seq (seqs ▸ rest)
  case pumping => exact h.pumping
  case ended =>
    intro ended
    have none : r.calls = [] := h.ended ended
    show r.calls.map begin_ = []
    rw [none, List.map_nil]
  case between =>
    have live := h.live working
    have entry : (Entry.delegated r.id call.seq).run = some r.id := rfl
    obtain ⟨name, inner, all, agent⟩ := h.between_concat live entry rfl
    exact ⟨name, inner, [], all.trans (List.append_nil _).symm, agent, .inl ⟨h.pumping.mp live, rfl⟩⟩

theorem endRun_advances (h : Account limit log r) (live : r.pumping = true) (settled : r.calls = [])
    (thrown : Option String) : Advances limit log r (endRun r log thrown) := by
  obtain ⟨result, recorded⟩ : ∃ result, endRun r log thrown =
      ({ r with
        error := thrown.or r.error, pumping := false, bridged := false, stopRequested := true, result := some result
        progress := r.progress ++ [.event (.runEnd r.id result.stopReason result.agentsStarted)] },
        log ++ [.recorded r.session (.runEnd r.id result.stopReason result.agentsStarted)]) := ⟨_, rfl⟩
  have own : (WorkflowEvent.runEnd r.id result.stopReason result.agentsStarted).run = r.id := rfl
  have agents : ∀ seq, agentEvents r.id seq
      (log ++ [.recorded r.session (.runEnd r.id result.stopReason result.agentsStarted)]) = agentEvents r.id seq log := by
    intro seq
    rw [agentEvents_concat own]
    exact List.append_nil _
  rw [recorded]
  refine ⟨rfl, .concat rfl log, ?_⟩
  constructor
  case apart => exact h.apart
  case drawn => exact h.drawn
  case flight => exact h.flight
  case room => exact h.room
  case ceiling => exact h.ceiling
  case shown => exact h.shown
  case started => exact (starts_concat own).trans h.started
  case finished => exact (congrArg (· + r.calls.length) (ends_concat own)).trans h.finished
  case fresh => exact fun seq later => (agents seq).trans (h.fresh seq later)
  case open_ => exact fun c hc => (agents c.seq).symm ▸ h.open_ c hc
  case closed => exact fun seq rest => (agents seq).symm ▸ h.closed seq rest
  case pumping => exact ⟨fun h => (by cases h), fun h => (by cases h)⟩
  case ended => exact fun _ => settled
  case between =>
    obtain ⟨name, inner, closing, all, agent, open_ | ⟨earlier, some, -⟩⟩ := h.between
    · refine ⟨name, inner, _, ?_, agent, .inr ⟨result, rfl, rfl⟩⟩
      have entry : (Entry.recorded r.session (.runEnd r.id result.stopReason result.agentsStarted)).run = Option.some r.id :=
        rfl
      refine (ofRun_concat entry).trans ?_
      rw [all, open_.2, List.append_nil]
    · rw [h.pumping.mp live] at some
      cases some

theorem openRun_advances (config : Config) {id : String} (name : String) (request : StartRequest) (new : ofRun id log = []) :
    Grows id log (openRun config id name request log).2 ∧ (openRun config id name request log).1.id = id ∧
      Account config.maxConcurrency (openRun config id name request log).2 (openRun config id name request log).1 := by
  have own : (WorkflowEvent.runStart id name).run = id := rfl
  have entry : (Entry.recorded request.parent (.runStart id name)).run = some id := rfl
  have events : eventsOf id (log ++ [.recorded request.parent (.runStart id name)]) = [.runStart id name] := by
    rw [eventsOf_concat own, eventsOf, new]
    rfl
  have agents : ∀ seq, agentEvents id seq (log ++ [.recorded request.parent (.runStart id name)]) = [] := by
    intro seq
    rw [agentEvents, events]
    rfl
  have opened (maxTotal : Nat) : Account config.maxConcurrency (log ++ [.recorded request.parent (.runStart id name)])
      { id, session := request.parent, maxTotal } := {
    apart := List.nodup_nil
    drawn := fun _ hc => (by cases hc)
    flight := rfl
    room := Nat.zero_le _
    ceiling := Nat.zero_le _
    shown := Nat.le_refl _
    started := congrArg (List.countP _) events
    finished := congrArg (List.countP _) events
    fresh := fun seq _ => agents seq
    open_ := fun _ hc => (by cases hc)
    closed := fun seq _ => .inl (agents seq)
    pumping := ⟨fun _ => rfl, fun _ => rfl⟩
    ended := fun _ => rfl
    between := ⟨name, [], [], (ofRun_concat entry).trans (congrArg (· ++ _) new), fun _ he => (by cases he), .inl ⟨rfl, rfl⟩⟩ }
  have booted := opened (request.maxTotalAgents.getD config.maxTotalAgents)
  unfold openRun
  split
  · exact ⟨.concat rfl log, rfl, booted.aside ..⟩
  · exact ⟨.concat rfl log, rfl, booted.aside ..⟩

end

/-! The service -/

theorem runId_injective {m n : Nat} (h : runId m = runId n) : m = n := by
  refine decimal_injective ?_
  simpa [runId] using h

/-- Runs have numbers of their own, the log has entries of them only, and each keeps its account. -/
structure Sound (s : WorkflowService) : Prop where
  ids : ∀ r ∈ s.runs, ∃ k < s.nextRun, r.id = runId k
  apart : (s.runs.map (·.id)).Nodup
  logged : ∀ e ∈ s.log, ∀ id, e.run = some id → id ∈ s.runs.map (·.id)
  accounts : ∀ r ∈ s.runs, Account s.config.maxConcurrency s.log r

section
variable {s s' : WorkflowService} {n : Nat} {r : RunState} {p : RunState × List Entry}

theorem update_ids (found : s.runs[n]? = some r) (same : p.1.id = r.id) :
    ((s.update n p).runs.map (·.id)) = s.runs.map (·.id) := by
  obtain ⟨bound, rfl⟩ := List.getElem?_eq_some_iff.mp found
  show (s.runs.set n p.1).map (·.id) = s.runs.map (·.id)
  rw [List.map_set, same]
  have bound' : n < (s.runs.map (·.id)).length := by rwa [List.length_map]
  have entry : (s.runs.map (·.id))[n] = s.runs[n].id := List.getElem_map ..
  rw [← entry, List.set_getElem_self]

/-- A step of one run leaves the accounts of the others. -/
theorem Sound.update (h : Sound s) (found : s.runs[n]? = some r) (step : Advances s.config.maxConcurrency s.log r p)
    (live : List Nat) : Sound { s.update n p with live } := by
  obtain ⟨more, grown, own⟩ := step.grows
  have ids := update_ids (p := p) found step.id
  have member : r ∈ s.runs := List.mem_of_getElem? found
  refine ⟨fun r' hr' => ?_, ids.symm ▸ h.apart, fun e he id run => ids.symm ▸ ?_, fun r' hr' => ?_⟩
  · obtain ⟨r'', hr'', same⟩ := List.mem_map.mp (ids ▸ List.mem_map.mpr ⟨r', hr', rfl⟩)
    exact same ▸ h.ids r'' hr''
  · rcases List.mem_append.mp (grown ▸ he : e ∈ s.log ++ more) with old | new
    · exact h.logged e old id run
    · rw [own e new] at run
      exact Option.some.inj run ▸ List.mem_map.mpr ⟨r, member, rfl⟩
  · obtain ⟨i, at_⟩ := List.getElem?_of_mem hr'
    by_cases here : n = i
    · obtain ⟨bound, -⟩ := List.getElem?_eq_some_iff.mp found
      have set : (s.runs.set n p.1)[n]? = some p.1 := List.getElem?_set_self bound
      have same : r' = p.1 := Option.some.inj ((here ▸ at_ : (s.runs.set n p.1)[n]? = some r').symm.trans set)
      exact same ▸ step.account
    · have old : s.runs[i]? = some r' := (List.getElem?_set_ne here).symm.trans at_
      have other : r'.id ≠ r.id := by
        intro same
        obtain ⟨bound, -⟩ := List.getElem?_eq_some_iff.mp found
        refine here ((List.getElem?_inj (by rwa [List.length_map]) h.apart).mp ?_)
        rw [List.getElem?_map, List.getElem?_map, found, old, Option.map_some, Option.map_some, same]
      have kept : Account s.config.maxConcurrency (s.log ++ more) r' :=
        (h.accounts r' (List.mem_of_getElem? old)).frame fun e he run => other (Option.some.inj (run.symm.trans (own e he)))
      exact (grown ▸ kept : Account s.config.maxConcurrency p.2 r')

theorem Sound.drawn (h : Sound s) (more : List Result) : Sound { s with nextRun := s.nextRun + 1, rejected := more } where
  ids r hr := (h.ids r hr).imp fun _ hk => ⟨Nat.lt_succ_of_lt hk.1, hk.2⟩
  apart := h.apart
  logged := h.logged
  accounts := h.accounts

theorem Sound.start (h : Sound s) (request : StartRequest) (known : Bool) (worker : Except String Bool) :
    Sound (s.start request known worker) := by
  unfold WorkflowService.start
  split
  · exact ⟨h.ids, h.apart, h.logged, h.accounts⟩
  · split
    · exact ⟨h.ids, h.apart, h.logged, h.accounts⟩
    · next name _ =>
        split
        · exact h.drawn _
        · exact h.drawn _
        · have free : runId s.nextRun ∉ s.runs.map (·.id) := by
            intro taken
            obtain ⟨r, hr, same⟩ := List.mem_map.mp taken
            obtain ⟨k, earlier, own⟩ := h.ids r hr
            exact Nat.ne_of_lt earlier (runId_injective (own.symm.trans same))
          have new : ofRun (runId s.nextRun) s.log = [] :=
            List.filter_eq_nil_iff.mpr fun e he same => free (h.logged e he _ (beq_iff_eq.mp same))
          obtain ⟨⟨more, grown, own⟩, id, account⟩ :=
            openRun_advances s.config name request new
          refine ⟨fun r hr => ?_, ?_, fun e he id' run => ?_, fun r hr => ?_⟩
          · rcases List.mem_append.mp hr with old | last
            · obtain ⟨k, earlier, same⟩ := h.ids r old
              exact ⟨k, Nat.lt_succ_of_lt earlier, same⟩
            · exact ⟨s.nextRun, Nat.lt_succ_self _, List.mem_singleton.mp last ▸ id⟩
          · show ((s.runs ++ [_]).map RunState.id).Nodup
            rw [List.map_append, List.map_singleton, id]
            exact List.nodup_append.mpr ⟨h.apart, List.nodup_singleton _, fun a ha b hb eq =>
              free (List.mem_singleton.mp hb ▸ eq ▸ ha)⟩
          · show id' ∈ (s.runs ++ [_]).map RunState.id
            rw [List.map_append, List.map_singleton, id, List.mem_append]
            rcases List.mem_append.mp (grown ▸ he : e ∈ s.log ++ more) with old | last
            · exact .inl (h.logged e old id' run)
            · exact .inr (List.mem_singleton.mpr (Option.some.inj (run.symm.trans (own e last))))
          · rcases List.mem_append.mp hr with old | last
            · have kept : Account s.config.maxConcurrency (s.log ++ more) r := by
                refine (h.accounts r old).frame fun e he run => free ?_
                exact Option.some.inj ((own e he).symm.trans run) ▸ List.mem_map.mpr ⟨r, old, rfl⟩
              exact (grown ▸ kept : Account s.config.maxConcurrency _ r)
            · exact List.mem_singleton.mp last ▸ account

theorem Sound.shut (h : Sound s) : Sound s.shut := by
  have killed : ∀ r' ∈ s.shut.runs, ∃ r ∈ s.runs, r' = r ∨ r' = WorkflowService.kill r := by
    intro r' hr'
    obtain ⟨⟨r, n⟩, found, rfl⟩ := List.mem_map.mp hr'
    refine ⟨r, List.fst_mem_of_mem_zipIdx found, ?_⟩
    dsimp only
    split
    · exact .inr rfl
    · exact .inl rfl
  have ids : s.shut.runs.map (·.id) = s.runs.map (·.id) := by
    rw [WorkflowService.shut, List.map_map]
    refine Eq.trans (List.map_congr_left (g := fun r => r.1.id) fun (r, n) _ => ?_) ?_
    · dsimp only [Function.comp]
      split <;> rfl
    · exact List.map_map.symm.trans (congrArg (List.map RunState.id) (List.zipIdx_map_fst 0 s.runs))
  refine ⟨fun r' hr' => ?_, ids.symm ▸ h.apart, fun e he id run => ids.symm ▸ h.logged e he id run, fun r' hr' => ?_⟩
  · obtain ⟨r, hr, rfl | rfl⟩ := killed r' hr'
    · exact h.ids r' hr
    · exact h.ids r hr
  · obtain ⟨r, hr, rfl | rfl⟩ := killed r' hr'
    · exact h.accounts r' hr
    · exact (h.accounts r hr).aside ..

theorem Sound.step {op : Op} (h : Sound s) (settled : Settled s op) (step : s.next op = some s') : Sound s' := by
  cases op with
  | run request known worker =>
      cases step
      exact h.start request known worker
  | message n message =>
      obtain ⟨r, found, step⟩ := Option.bind_eq_some_iff.mp step
      split at step
      · next live =>
          cases step
          exact h.update found (handleMessage_advances (h.accounts r (List.mem_of_getElem? found)) live message) _
      · cases step
  | ended n thrown =>
      obtain ⟨r, found, step⟩ := Option.bind_eq_some_iff.mp step
      split at step
      · next live =>
          cases step
          have account := h.accounts r (List.mem_of_getElem? found)
          exact h.update found (endRun_advances account live (settled r found) thrown) _
      · cases step
  | delegate n seq =>
      obtain ⟨r, found, step⟩ := Option.bind_eq_some_iff.mp step
      obtain ⟨call, working, step⟩ := Option.bind_eq_some_iff.mp step
      split at step
      · cases step
      · cases step
        have same := List.find?_some (p := fun c : AgentCall => c.seq == seq) working
        refine h.update found ?_ _
        refine beq_iff_eq.mp same ▸ delegate_advances (h.accounts r (List.mem_of_getElem? found)) (List.mem_of_find?_eq_some working) _ ?_
        intro c
        split <;> rfl
  | settle n seq child =>
      obtain ⟨r, found, step⟩ := Option.bind_eq_some_iff.mp step
      obtain ⟨call, working, step⟩ := Option.bind_eq_some_iff.mp step
      split at step
      · cases step
        exact h.update found
          (finishCall_advances (h.accounts r (List.mem_of_getElem? found)) (List.mem_of_find?_eq_some working) child) _
      · cases step
  | cancel n =>
      obtain ⟨r, found, step⟩ := Option.bind_eq_some_iff.mp step
      split at step
      · cases step
        exact h.update found ⟨rfl, .refl .., (h.accounts r (List.mem_of_getElem? found)).aside ..⟩ _
      · cases step
  | breakPipe n =>
      obtain ⟨r, found, step⟩ := Option.bind_eq_some_iff.mp step
      cases step
      exact h.update found ⟨rfl, .refl .., (h.accounts r (List.mem_of_getElem? found)).aside ..⟩ _
  | shutdown =>
      cases step
      exact h.shut
  | append session type data =>
      cases step
      refine ⟨h.ids, h.apart, fun e he id run => ?_, fun r hr => (h.accounts r hr).frame fun e he run => ?_⟩
      · rcases List.mem_append.mp he with old | last
        · exact h.logged e old id run
        · cases List.mem_singleton.mp last
          cases run
      · cases List.mem_singleton.mp he
        cases run

end

/-- Every run keeps its brackets and its bounds, as long as the streams of the workers end with no
agent at work. -/
theorem workflow_brackets {s : WorkflowService} (h : workflows.Reached Settled s) :
    ∀ r ∈ s.runs, Kept s.config s.log r := by
  have sound : Sound s := by
    refine h.invariant ?_ fun s op s' _ sound step settled => sound.step settled step
    intro s start
    obtain ⟨-, runs, -, foreign⟩ := start
    have none : ∀ r ∈ s.runs, False := fun r hr => by
      rw [runs] at hr
      cases hr
    refine ⟨fun r hr => (none r hr).elim, ?_, fun e he id run => ?_, fun r hr => (none r hr).elim⟩
    · rw [runs]
      exact List.nodup_nil
    · rw [foreign e he] at run
      cases run
  exact fun r hr => (sound.accounts r hr).kept

def settled? (s : WorkflowService) : Op → Bool
  | .ended n _ => s.runs[n]?.all (·.calls.isEmpty)
  | _ => true

theorem settled_of_check {s : WorkflowService} {op : Op} (h : settled? s op = true) : Settled s op := by
  cases op with
  | ended n thrown =>
      intro r found
      rw [settled?, found] at h
      exact List.isEmpty_iff.mp h
  | _ => trivial

/-- A run of one script, and a call for one of its agents. -/
def review : Op :=
  .run { script := "", data := .obj [("name", .str "review"), ("description", .str "readers")], parent := "s" } true (.ok true)

def agent (id : Int) : Op :=
  .message 0 (.obj [("type", .str "call"), ("id", .int id), ("args", .obj [("prompt", .str "read"), ("label", .str "reader")])])

/-- A reader is called, answers, and the script is done. -/
theorem workflow_brackets_read : ∃ s : WorkflowService, ∃ r ∈ s.runs,
    (r.result.map (·.stopReason)) = some "completed" ∧ Kept s.config s.log r := by
  have played : (System.follow WorkflowService.next settled? {} [review, agent 1, .delegate 0 1,
      .settle 0 1 (.ok { output := "fine", child := "c" }), .message 0 (.obj [("type", .str "done")]), .ended 0 none]).any
      (fun s => s.runs.any fun r => r.result.map (·.stopReason) == some "completed") = true := by decide +kernel
  obtain ⟨s, hs, shape⟩ := (Option.any_eq_true _ _).mp played
  obtain ⟨r, hr, completed⟩ := List.any_eq_true.mp shape
  have reached := System.follow_reached (S := workflows) (P := Settled) (fun _ _ _ h => h)
    (fun _ _ => settled_of_check) hs (.start ⟨rfl, rfl, rfl, fun _ he => (by cases he)⟩)
  exact ⟨s, r, hr, beq_iff_eq.mp completed, workflow_brackets reached r hr⟩

/-- The worker is gone with an agent at work and another one queued: the first ends and the second
starts behind the end of the run. -/
theorem workflow_unbracketed :
    ¬ ∀ s, workflows.Reached (fun _ _ => True) s → ∀ r ∈ s.runs, Kept s.config s.log r := by
  intro keeps
  have played : (System.follow WorkflowService.next (fun _ _ => true) { config := { maxConcurrency := 1 } }
      [review, agent 1, agent 2, .delegate 0 1, .ended 0 none, .settle 0 1 (.ok {})]).any (fun s =>
        s.runs.any fun r => r.result.isSome && (eventsOf r.id s.log).getLast?.any (·.isStart)) = true := by decide +kernel
  obtain ⟨s, hs, shape⟩ := (Option.any_eq_true _ _).mp played
  obtain ⟨r, hr, last⟩ := List.any_eq_true.mp shape
  rw [Bool.and_eq_true] at last
  have reached := System.follow_reached (S := workflows) (P := fun _ _ => True) (fun _ _ _ h => h)
    (fun _ _ _ => trivial) hs (.start ⟨rfl, rfl, rfl, fun _ he => (by cases he)⟩)
  obtain ⟨name, agents, closing, all, -, open_ | ⟨result, -, rfl⟩⟩ := (keeps s reached r hr).bracketed.between
  · rw [open_.1] at last
    cases last.1
  · have events : eventsOf r.id s.log =
        (Entry.recorded r.session (.runStart r.id name) :: agents).filterMap Entry.event ++
          [.runEnd r.id result.stopReason result.agentsStarted] := by
      rw [eventsOf, all, List.filterMap_append]
      rfl
    rw [events, List.getLast?_concat] at last
    cases last.2

end Araya.Workflow
