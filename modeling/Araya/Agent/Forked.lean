import Araya.Agent.Carried
import Araya.Agent.Conservation
import Araya.Agent.Splice
import Araya.Session.Firehose

/-!
What a forked session consumes. The inbox is a fold of the log, so a fork has pending
what its prefix leaves pending. The child's turns admit this and what the child is
given itself; its own prompt waits as a seed, or at the end of a queue.
-/

namespace Araya.Agent
open Sessions (Event Session SessionStore CreateOptions)

/-! The fork -/

/-- What the loop reads of a session's log. -/
def Reads (log : Log) (events : List Event) : Prop :=
  List.Forall₂ (fun e ev => ev.type = e.type ∧ ev.data = e.data) log events

/-- One event under `inbox_projection`. -/
def projectInbox (state : InboxState) (ev : Event) : InboxState :=
  if ev.type = "agent/inbox/spliced" then applyInboxSplice state ev.data else state

/-- `completed_turn_prefix`: where the last completed turn of a log ends. -/
def completedTurns (log : List Event) : Nat :=
  log.zipIdx.foldl (fun cut entry => if entry.1.type = "turn/end" then entry.2 + 1 else cut) 0

/-- What `fork_provider::create_child` prepares the child with. -/
def providerOptions (parent : Session) (depth : UInt32) : CreateOptions :=
  let seed := parent.log.take (completedTurns parent.log)
  { seed
    inheritedEventCount := seed.length
    isSeeded := !seed.isEmpty
    cwd := parent.header.cwd
    parentSession := some parent.id
    origin := .subagent
    delegationDepth := some depth
    agentPreset := parent.header.agentPreset }

/-- A session is forked by the store at any cut, and by the provider at its last completed turn. -/
inductive ForkedAt (parent : Session) : CreateOptions → Nat → Prop
  | store {cut : Nat} : cut ≤ parent.log.length → ForkedAt parent (Sessions.SessionStore.forkOptions parent cut) cut
  | provider (depth : UInt32) : ForkedAt parent (providerOptions parent depth) (completedTurns parent.log)

theorem Reads.take {log : Log} {events : List Event} (h : Reads log events) (n : Nat) :
    Reads (log.take n) (events.take n) := by
  exact List.forall₂_take n h

theorem inboxOf_reads {log : Log} {events : List Event} (h : Reads log events) :
    inboxOf log = events.foldl projectInbox {} := by
  unfold inboxOf
  generalize ({} : InboxState) = state
  induction h generalizing state with
  | nil => rfl
  | cons same rest ih =>
      rw [List.foldl_cons, List.foldl_cons, ih, projectInbox, foldInbox, same.1, same.2]

theorem projectInbox_plain {events : List Event} (h : ∀ ev ∈ events, ev.type ≠ "agent/inbox/spliced")
    (state : InboxState) : events.foldl projectInbox state = state := by
  induction events with
  | nil => rfl
  | cons ev rest ih =>
      rw [List.foldl_cons, projectInbox, if_neg (h ev List.mem_cons_self)]
      exact ih fun e he => h e (List.mem_cons_of_mem _ he)

theorem closers_plain {time : Int} {seq : Nat} {calls : List String} :
    ∀ ev ∈ Sessions.closers time seq calls, ev.type ≠ "agent/inbox/spliced" := by
  induction calls generalizing seq with
  | nil => exact fun ev h => absurd h List.not_mem_nil
  | cons call rest ih =>
      intro ev h
      rcases List.mem_cons.mp h with rfl | h
      · simp [Sessions.closer]
      · exact ih ev h

section
variable {σ : Type} {st : SessionStore σ} {parent child : Session} {options : CreateOptions} {cut : Nat}
  {id : Sessions.SessionId} {now : Int} {log found : Log}

theorem ForkedAt.seed (h : ForkedAt parent options cut) : options.seed = parent.log.take cut := by
  cases h <;> rfl

theorem foldl_marked (mark : Event → Bool) (events : List Event) (state : InboxState) :
    (events.map fun ev => { ev with ignorable := mark ev }).foldl projectInbox state = events.foldl projectInbox state := by
  induction events generalizing state with
  | nil => rfl
  | cons ev rest ih => exact ih _

/-- Neither the repair nor the marker of a fork touches the inbox. -/
theorem inboxOf_forked (reads : Reads log parent.log) (forked : ForkedAt parent options cut)
    (made : st.prepared id options now = .ok child) (opened : Reads found child.log) :
    inboxOf found = inboxOf (log.take cut) := by
  obtain ⟨-, -, opening⟩ := Sessions.prepared_spec made
  have repaired : ∀ seed : List Event,
      (Sessions.repairInterruptedTurns now seed).foldl projectInbox {} = seed.foldl projectInbox {} := by
    intro seed
    rw [Sessions.repairInterruptedTurns, List.foldl_append]
    exact projectInbox_plain closers_plain _
  have opens : ∀ seed : List Event,
      (Sessions.SessionStore.openingLog now options seed).foldl projectInbox {} = seed.foldl projectInbox {} := by
    intro seed
    unfold Sessions.SessionStore.openingLog
    dsimp only
    split
    · rw [List.foldl_append, repaired]
      exact projectInbox_plain (by simp [Sessions.SessionStore.endSeed]) _
    · exact repaired seed
  rw [inboxOf_reads opened, inboxOf_reads (reads.take cut), opening, opens, ← forked.seed]
  exact foldl_marked _ _ _

end
/-! What the child's turns admit -/

/-- The ids that a step hands over: with a call, from a context producer, or in a batch
from the pre-step listeners that add to it. -/
def World.handed (w : World) : Act → List String
  | .call c => messageIds (w.brought c)
  | .advance _ (.context messages) => messageIds messages
  | .advance i (.decision false messages) =>
    (messageIds messages).filter fun x => x ∉ messageIds (w.drives[i]?.toList.flatMap (·.phase.hands))
  | _ => []

theorem mem_messageIds {messages : List Json} {x : String} :
    x ∈ messageIds messages ↔ x ≠ "" ∧ ∃ m ∈ messages, inboxMessageId m = x := by
  simp only [messageIds, List.mem_filter, List.mem_map, decide_eq_true_eq]
  exact and_comm

theorem admitted_aside {events : List LoopEvent} (h : ∀ e ∈ events, e.Aside) : admitted events = [] := by
  refine List.filterMap_eq_nil_iff.mpr fun e he => ?_
  cases e with
  | userMessage data => exact absurd (by simp [LoopEvent.type, loopTypes]) (h _ he)
  | _ => rfl

/-- A move admits what its drive holds. -/
theorem moved_admitted {success : Bool} {log : Log} {a : AgentState} {p : Phase} {o : Outcome} {m : Move}
    (h : Moved success log a p o m) : ∀ x ∈ admitted m.events, x ∈ p.hands := by
  cases h with
  | admits t message rest => exact fun x hx => List.mem_cons.mpr (.inl (List.mem_singleton.mp hx))
  | claimsStep t m hm | claimsTurn t claimed m hm =>
      rw [admitted_mutation]
      exact fun x hx => absurd hx List.not_mem_nil
  | prompts t messages events hf | requests t events hf =>
      rw [admitted_foreign hf]
      exact fun x hx => absurd hx List.not_mem_nil
  | ends t acc _ _ _ _ | answered t acc _ _ | asks t acc _ _ =>
      rw [admitted_commit]
      exact fun x hx => absurd hx List.not_mem_nil
  | _ => exact fun x hx => absurd hx List.not_mem_nil

/-- What is carried, and what was admitted since the start. -/
structure World.Consumes (start : Log) (P : Json → Prop) (w : World) : Prop where
  carries : w.Carries P
  own : ∃ own, admitted w.log = admitted start ++ own ∧ ∀ m ∈ own, P m

theorem World.Grown.admitted {w w' : World} (h : w.Grown w') : admitted w'.log = admitted w.log := by
  obtain ⟨events, hl, aside⟩ := h.log
  rw [hl, admitted_append, admitted_aside aside, List.append_nil]

namespace World.Consumes
variable {start : Log} {Q : String → Prop} {w w' : World}

theorem step (inv : w.Consumes start fun m => inboxMessageId m ≠ "" → Q (inboxMessageId m)) {a : Act}
    (handed : ∀ x ∈ w.handed a, Q x) (h : w.next a = some w') :
    w'.Consumes start fun m => inboxMessageId m ≠ "" → Q (inboxMessageId m) := by
  obtain ⟨own, hown, owned⟩ := inv.own
  cases a with
  | call c =>
      have brought : ∀ m ∈ w.brought c, inboxMessageId m ≠ "" → Q (inboxMessageId m) :=
        fun m hm named => handed _ (mem_messageIds.mpr ⟨named, m, hm, rfl⟩)
      exact ⟨inv.carries.call brought h, own, by rw [(World.Grown.call h).admitted, hown], owned⟩
  | advance i o =>
      have brought : ∀ m ∈ o.brought, inboxMessageId m ≠ "" → Q (inboxMessageId m) := by
        intro m hm named
        have member : inboxMessageId m ∈ messageIds o.brought := mem_messageIds.mpr ⟨named, m, hm, rfl⟩
        cases o with
        | context messages => exact handed _ member
        | decision reject messages =>
            cases reject with
            | true => exact absurd hm List.not_mem_nil
            | false =>
                by_cases inside : inboxMessageId m ∈ messageIds (w.drives[i]?.toList.flatMap (·.phase.hands))
                · obtain ⟨-, held, hheld, same⟩ := mem_messageIds.mp inside
                  obtain ⟨d, hd, hheld⟩ := List.mem_flatMap.mp hheld
                  have drive := List.mem_of_getElem? (Option.mem_toList.mp hd)
                  exact same ▸ inv.carries.held d drive held hheld (same ▸ named)
                · exact handed _ (List.mem_filter.mpr ⟨member, decide_eq_true inside⟩)
        | _ => exact absurd hm List.not_mem_nil
      have carries := inv.carries.advance brought h
      obtain ⟨d, a, m, hd, -, moved, grown⟩ := World.advance_grown h
      refine ⟨carries, own ++ admitted m.events, ?_, fun x hx => ?_⟩
      · rw [grown.admitted, World.apply, admitted_append, hown, List.append_assoc]
      · rcases List.mem_append.mp hx with old | new
        · exact owned x old
        · exact inv.carries.held d (List.mem_of_getElem? hd) x (moved_admitted moved x new)

/-- What the runs over a log admit was pending in it, or it was handed to them. -/
theorem reached {found : Log} (pending : ∀ x ∈ (inboxOf found).ids, Q x)
    (h : (loopSystem (· = found)).Reached (fun w a => ∀ x ∈ w.handed a, Q x) w) :
    w.Consumes found fun m => inboxMessageId m ≠ "" → Q (inboxMessageId m) := by
  refine System.Reached.invariant ?_ (fun w a w' _ inv hs ok => inv.step ok hs) h
  rintro _ ⟨log, success, rfl, rfl⟩
  refine ⟨⟨fun target m hm named => pending _ ?_, fun d hd => absurd hd List.not_mem_nil,
    fun a ha => absurd ha List.not_mem_nil⟩, [], (List.append_nil _).symm, fun m hm => absurd hm List.not_mem_nil⟩
  have member : inboxMessageId m ∈ messageIds ((inboxOf log).queue target) := mem_messageIds.mpr ⟨named, m, hm, rfl⟩
  cases target with
  | nextTurn => exact List.mem_append_left _ member
  | nextStep => exact List.mem_append_right _ member

end World.Consumes

/-! Where a batch goes -/

/-- What has the id is in a batch, or it was admitted since the start, rejected or lost. -/
def World.Offered (start : Log) (x : String) (w : World) : Prop :=
  ∃ own, admitted w.log = admitted start ++ own ∧ x ∈ messageIds (w.held ++ own ++ w.rejected ++ w.lost)

/-- A message leaves its batch when it is admitted, left out or lost. -/
theorem moved_onward {success : Bool} {log : Log} {a : AgentState} {p : Phase} {o : Outcome} {m : Move} {x : String}
    (h : Moved success log a p o m) (dropped : p.Dropped) (hx : x ∈ messageIds p.hands) :
    x ∈ messageIds (m.phase.hands ++ admitted m.events ++ m.rejected ++ m.lost) := by
  have named := (mem_messageIds.mp hx).1
  simp only [messageIds_append, List.mem_append]
  cases h with
  | claimsStep t m hm => exact absurd hx List.not_mem_nil
  | claimsTurn t claimed m hm =>
      rw [Phase.hands, messageIds_append]
      exact .inl (.inl (.inl (List.mem_append_left _ hx)))
  | proposes t claimed messages =>
      rw [Phase.hands, messageIds_append, messageIds_append]
      exact .inl (.inl (.inl (List.mem_append_left _ (List.mem_append_right _ hx))))
  | rejects t proposed messages => exact .inl (.inr hx)
  | decides t proposed messages =>
      by_cases kept : x ∈ messages.map inboxMessageId
      · obtain ⟨m, hm, same⟩ := List.mem_map.mp kept
        exact .inl (.inl (.inl (mem_messageIds.mpr ⟨named, m, hm, same⟩)))
      · obtain ⟨-, m, hm, same⟩ := mem_messageIds.mp hx
        have out : m ∈ leftOut proposed messages := List.mem_filter.mpr ⟨hm, by rw [same]; simpa using kept⟩
        exact .inl (.inr (mem_messageIds.mpr ⟨named, m, out, same⟩))
  | blocked t messages =>
      rw [show messages = [] from dropped] at hx
      exact absurd hx List.not_mem_nil
  | admits t message rest =>
      rw [Phase.hands, ← List.singleton_append, messageIds_append] at hx
      rcases List.mem_append.mp hx with first | later
      · exact .inl (.inl (.inr first))
      · exact .inl (.inl (.inl later))
  | raisesStep p t what hp | raisesTurn p t what hp => exact .inr hx
  | _ => exact .inl (.inl (.inl hx))

theorem World.Grown.held {w w' : World} (h : w.Grown w') : w'.held = w.held := by
  obtain ⟨new, hd, posted⟩ := h.drives
  have empty : new.flatMap (·.phase.hands) = [] :=
    List.flatMap_eq_nil_iff.mpr fun d fresh => by rw [posted d fresh]; rfl
  rw [World.held, hd, List.flatMap_append, empty, List.append_nil]
  rfl

theorem World.Grown.dropped {w w' : World} (h : w.Grown w') (dropped : ∀ d ∈ w.drives, d.phase.Dropped) :
    ∀ d ∈ w'.drives, d.phase.Dropped := by
  obtain ⟨new, hd, posted⟩ := h.drives
  intro d member
  rw [hd] at member
  rcases List.mem_append.mp member with old | fresh
  · exact dropped d old
  · rw [posted d fresh]
    trivial

theorem World.Grown.offered {w w' : World} {start : Log} {x : String} (h : w.Grown w') :
    w'.Offered start x ↔ w.Offered start x := by
  simp only [World.Offered, h.admitted, h.held, h.rejected, h.lost]

namespace World
variable {start : Log} {x : String} {w w' : World}

theorem mem_held {i : Nat} {d : Drive} {message : Json} (hd : w.drives[i]? = some d) (held : message ∈ d.phase.hands) :
    message ∈ w.held :=
  List.mem_flatMap.mpr ⟨d, List.mem_of_getElem? hd, held⟩

theorem apply_drive {i : Nat} {d : Drive} {m : Move} (hd : w.drives[i]? = some d) :
    (w.apply i d m).drives[i]? = some { d with phase := m.phase } := by
  obtain ⟨inside, -⟩ := List.getElem?_eq_some_iff.mp hd
  exact List.getElem?_set_self inside

theorem Offered.apply {i : Nat} {d : Drive} {a : AgentState} {o : Outcome} {m : Move} (h : w.Offered start x)
    (dropped : ∀ d ∈ w.drives, d.phase.Dropped) (hd : w.drives[i]? = some d)
    (moved : Moved w.maxTokensAsSuccess w.log a d.phase o m) : (w.apply i d m).Offered start x := by
  obtain ⟨own, hown, located⟩ := h
  refine ⟨own ++ admitted m.events, by rw [World.apply, admitted_append, hown, List.append_assoc], ?_⟩
  have handed : ∀ y ∈ m.phase.hands, y ∈ (w.apply i d m).held := fun y hy => mem_held (apply_drive hd) hy
  simp only [messageIds_append, List.mem_append] at located ⊢
  rcases located with ((held | mine) | rejected) | lost
  · obtain ⟨named, message, hm, same⟩ := mem_messageIds.mp held
    obtain ⟨e, he, hm⟩ := List.mem_flatMap.mp hm
    obtain ⟨j, hj⟩ := List.mem_iff_getElem?.mp he
    by_cases here : i = j
    · subst here
      obtain rfl : d = e := Option.some.inj (hd.symm.trans hj)
      have onward := moved_onward moved (dropped d he) (mem_messageIds.mpr ⟨named, message, hm, same⟩)
      simp only [messageIds_append, List.mem_append] at onward
      rcases onward with ((hands | admitted) | rejected) | lost
      · obtain ⟨-, y, hy, hid⟩ := mem_messageIds.mp hands
        exact .inl (.inl (.inl (mem_messageIds.mpr ⟨named, y, handed y hy, hid⟩)))
      · exact .inl (.inl (.inr (.inr admitted)))
      · refine .inl (.inr ?_)
        rw [World.apply, messageIds_append]
        exact List.mem_append_right _ rejected
      · refine .inr ?_
        rw [World.apply, messageIds_append]
        exact List.mem_append_right _ lost
    · have stays : (w.apply i d m).drives[j]? = some e := (List.getElem?_set_ne here).trans hj
      exact .inl (.inl (.inl (mem_messageIds.mpr ⟨named, message, mem_held stays hm, same⟩)))
  · exact .inl (.inl (.inr (.inl mine)))
  · refine .inl (.inr ?_)
    rw [World.apply, messageIds_append]
    exact List.mem_append_left _ rejected
  · refine .inr ?_
    rw [World.apply, messageIds_append]
    exact List.mem_append_left _ lost

/-- What a step does to the batches: it keeps what a rejection emptied, adds to what was
admitted, and loses nothing that was offered. -/
theorem step_offered {a : Act} (dropped : ∀ d ∈ w.drives, d.phase.Dropped) (h : w.next a = some w') :
    (∀ d ∈ w'.drives, d.phase.Dropped) ∧ (∃ more, admitted w'.log = admitted w.log ++ more) ∧
      (w.Offered start x → w'.Offered start x) := by
  cases a with
  | call c =>
      have grown := World.Grown.call h
      exact ⟨grown.dropped dropped, ⟨[], by rw [grown.admitted, List.append_nil]⟩, grown.offered.mpr⟩
  | advance i o =>
      obtain ⟨d, a, m, hd, -, moved, grown⟩ := World.advance_grown h
      refine ⟨grown.dropped fun e he => ?_, ⟨admitted m.events, ?_⟩, fun offered => ?_⟩
      · rcases List.mem_or_eq_of_mem_set he with old | rfl
        · exact dropped e old
        · exact moved_dropped moved
      · rw [grown.admitted, World.apply, admitted_append]
      · exact grown.offered.mpr (offered.apply dropped hd moved)

end World

/-! The seed of a driver -/

/-- Driver `i` keeps the message for the first turn that it opens. -/
def World.Seeded (i : Nat) (message : Json) (w : World) : Prop := ∃ a, w.agents[i]? = some a ∧ a.seed = some message

/-- A run of the idle driver with another input. -/
def World.Reseeds (w : World) (i : Nat) : Act → Prop
  | .call (.run _ input _) => input.isEmpty = false ∧ w.current = some i ∧ (w.agents[i]?).any (·.running) = false
  | _ => False

theorem moved_seeded {success : Bool} {log : Log} {a : AgentState} {p : Phase} {o : Outcome} {m : Move} {message : Json}
    (h : Moved success log a p o m) (seed : a.seed = some message) :
    m.agent.seed = some message ∨ message ∈ m.phase.hands := by
  cases h with
  | proposes t claimed messages => exact .inr (List.mem_append_right _ (Option.mem_toList.mpr seed))
  | ends t acc status a' _ ha =>
      rw [ha]
      split <;> exact .inl seed
  | _ => exact .inl seed

namespace World.Seeded
variable {i : Nat} {message : Json} {w w' : World}

theorem updateAgent (h : w.Seeded i message) {j : Nat} {f : AgentState → AgentState}
    (kept : j = i → ∀ a, (f a).seed = a.seed) : (w.updateAgent j f).Seeded i message := by
  obtain ⟨a, ha, seed⟩ := h
  by_cases here : j = i
  · exact ⟨f a, by simp [World.updateAgent, here, ha], (kept here a).trans seed⟩
  · exact ⟨a, by simp [World.updateAgent, here, ha], seed⟩

theorem congr (h : w.Seeded i message) (agents : w'.agents = w.agents) : w'.Seeded i message := by
  obtain ⟨a, ha, seed⟩ := h
  exact ⟨a, by rw [agents, ha], seed⟩

theorem kick (h : w.Seeded i message) (j : Nat) : (w.kick j).Seeded i message := by
  rcases w.kick_cases j with hk | ⟨a, _, _, hk⟩ <;> rw [hk]
  · exact h
  · exact (h.updateAgent (f := fun a =>
      { a with running := true, stop := a.callerStop.any (· ∈ w.stopped), bridge := a.callerStop }) fun _ _ => rfl).congr rfl

theorem await (h : w.Seeded i message) (m : Json) : (w.await m).Seeded i message := by
  unfold World.await
  dsimp only
  split
  · exact h
  · exact h.congr rfl

theorem requestAbort (h : w.Seeded i message) (j : Nat) : (w.requestAbort j).Seeded i message := by
  refine h.updateAgent fun _ a => ?_
  split <;> rfl

theorem call (h : w.Seeded i message) {c : Call} (kept : ¬ w.Reseeds i (.call c)) (hw : w.call c = some w') :
    w'.Seeded i message := by
  cases c with
  | create =>
      simp only [World.call] at hw
      split at hw
      · cases hw; exact h
      · cases hw
        obtain ⟨a, ha, seed⟩ := h
        exact ⟨a, List.getElem?_append_left (List.getElem?_eq_some_iff.mp ha).1 ▸ ha, seed⟩
  | createFailed => cases hw; exact h.congr rfl
  | run options input refused =>
      obtain ⟨j, hj, rfl⟩ := Option.map_eq_some_iff.mp hw
      have merged : (w.updateAgent j (·.mergeExec options)).Seeded i message := h.updateAgent fun _ _ => rfl
      unfold World.run
      dsimp only
      split
      · exact merged.kick j
      · next filled =>
          split
          · split
            · exact merged
            · exact World.Seeded.updateAgent (merged.congr rfl) fun _ _ => rfl
          · next idle =>
              refine World.Seeded.kick (merged.updateAgent fun here => ?_) j
              subst here
              refine absurd ⟨by simpa using filled, hj, ?_⟩ kept
              cases ha : w.agents[j]? with
              | none => rfl
              | some a => simpa [World.updateAgent, ha, AgentState.mergeExec] using idle
  | followup m options refused | steer m options refused =>
      obtain ⟨j, _, rfl⟩ := Option.map_eq_some_iff.mp hw
      have merged : (w.updateAgent j (·.mergeExec options)).Seeded i message := h.updateAgent fun _ _ => rfl
      unfold World.wakeWith
      dsimp only
      split
      · exact merged
      · refine World.Seeded.kick ?_ j
        exact (merged.await m).congr rfl
  | inject m refused =>
      obtain ⟨j, _, rfl⟩ := Option.map_eq_some_iff.mp hw
      split
      · exact h
      · exact h.congr rfl
  | cancel keepInbox refused =>
      simp only [World.call] at hw
      split at hw
      · cases hw; exact h.congr rfl
      · have forgot : ({ w with awaited := [] } : World).Seeded i message := h.congr rfl
        rcases World.of_call_cancel hw with rfl | rfl | rfl | rfl
        · exact forgot
        · exact forgot.congr rfl
        · exact forgot.requestAbort _
        · exact World.Seeded.requestAbort (forgot.congr rfl) _
  | dispose | shutdown =>
      simp only [World.call] at hw
      split at hw
      · cases hw; exact h
      · cases hw; exact (h.requestAbort _).congr rfl
  | requestStop token =>
      cases hw
      obtain ⟨a, ha, seed⟩ := h
      refine ⟨_, by rw [List.getElem?_map, ha]; rfl, ?_⟩
      dsimp only
      split <;> exact seed
  | append event =>
      simp only [World.call] at hw
      split at hw
      · cases hw; exact h.congr rfl
      · cases hw

/-- A seed stays until a batch takes it. -/
theorem advance (h : w.Seeded i message) {k : Nat} {o : Outcome} (hw : w.advance k o = some w') :
    w'.Seeded i message ∨ message ∈ w'.held := by
  have applied : ∀ {d a m}, w.drives[k]? = some d → w.agents[d.agent]? = some a →
      Moved w.maxTokensAsSuccess w.log a d.phase o m →
      (w.apply k d m).Seeded i message ∨ message ∈ (w.apply k d m).held := by
    intro d a m hd ha moved
    obtain ⟨b, hb, seed⟩ := h
    by_cases here : d.agent = i
    · subst here
      obtain rfl : a = b := Option.some.inj (ha.symm.trans hb)
      refine (moved_seeded moved seed).imp (fun kept => ⟨_, ?_, kept⟩) fun taken => mem_held (apply_drive hd) taken
      exact List.getElem?_set_self (List.getElem?_eq_some_iff.mp ha).1
    · exact .inl ⟨b, (List.getElem?_set_ne here).trans hb, seed⟩
  obtain ⟨d, a, m, hd, ha, moved, rfl | ⟨_, rfl⟩⟩ := World.advance_cases hw
  · exact applied hd ha moved
  · refine (applied hd ha moved).imp (fun kept => ?_) fun taken => ?_
    · unfold World.rewake
      split
      · exact kept.kick _
      · exact kept
    · rw [(World.Grown.rewake _ _ _).held]
      exact taken

end World.Seeded

/-! The next-turn queue -/

/-- The message is the next that a turn claims as its own, or it was discarded. -/
def World.Heads (message : Json) (w : World) : Prop :=
  (inboxOf w.log).nextTurn.head? = some message ∨ inboxMessageId message ∈ messageIds w.discarded

theorem spliceAt_zero {s : InboxState} {target : InboxTarget} : spliceAt s target 0 = 0 := by
  simp [spliceAt, clampStart]

/-- A removal at the front takes as many as it asks for, or all. -/
theorem spliceCount_zero {s : InboxState} {target : InboxTarget} (n : Nat) :
    spliceCount s target 0 n = min n (s.queue target).length := by
  have start : clampStart (s.queue target).length 0 = 0 := by simp [clampStart]
  unfold spliceCount clampCount
  rw [start]
  split <;> omega

theorem nextTurn_spliced {s : InboxState} {start count : Int} {inserted : List Json} :
    (s.spliced .nextStep start count inserted).nextTurn = s.nextTurn := rfl

theorem nextTurn_mutation {log : Log} {start count : Int} {inserted : List Json} {discard : Bool} {m : InboxMutation}
    (h : m = makeInboxSplice (inboxOf log) .nextStep start count inserted discard) :
    (inboxOf (log ++ m.events)).nextTurn = (inboxOf log).nextTurn := by
  cases hn : m.noop with
  | true => rw [InboxMutation.events, if_pos hn, List.append_nil]
  | false => rw [inboxOf_mutation h hn, nextTurn_spliced]

/-- What is put at the end of a queue does not pass its head. -/
theorem head_enqueued {s : InboxState} {message : Json} :
    (s.spliced .nextTurn int64Max 0 [message]).nextTurn.head? = s.nextTurn.head?.or
      (if inboxMessageId message = "" ∨ inboxMessageId message ∈ s.ids then none else some message) := by
  have start : clampStart s.nextTurn.length int64Max = min int64Max s.nextTurn.length := by
    rw [clampStart, if_neg (by decide)]
  have none : clampCount s.nextTurn.length (min int64Max s.nextTurn.length) 0 = 0 := by
    unfold clampCount
    rw [if_neg (by decide)]
    omega
  have same : s.setQueue .nextTurn s.nextTurn = s := rfl
  simp only [InboxState.spliced, InboxState.queue, start, none, Int.toNat_zero, Nat.add_zero, List.take_append_drop,
    same, insertNew]
  split
  · rw [same, Option.or_none]
  · cases hq : s.nextTurn with
    | nil => simp [InboxState.setQueue]
    | cons first rest =>
        have inside : (min int64Max ((first :: rest).length : Int)).toNat =
            (min int64Max ((first :: rest).length : Int)).toNat - 1 + 1 := by
          have large : (0 : Int) < int64Max := by decide
          simp only [List.length_cons]
          omega
        rw [inside]
        rfl

namespace World.Heads
variable {message : Json} {w w' : World}

theorem congr (h : w.Heads message) (log : w'.log = w.log) (discarded : w'.discarded = w.discarded) :
    w'.Heads message := by
  unfold World.Heads
  rw [log, discarded]
  exact h

theorem kick (h : w.Heads message) (j : Nat) : (w.kick j).Heads message := by
  rcases w.kick_cases j with hk | ⟨a, _, _, hk⟩ <;> rw [hk]
  · exact h
  · exact h.congr rfl rfl

theorem await (h : w.Heads message) (m : Json) : (w.await m).Heads message := by
  unfold World.await
  dsimp only
  split
  · exact h
  · exact h.congr rfl rfl

theorem enqueue (h : w.Heads message) (target : InboxTarget) (m : Json) : (w.enqueue target m).Heads message := by
  refine h.imp (fun first => ?_) id
  rw [World.inboxOf_enqueue]
  cases target with
  | nextStep => exact first
  | nextTurn => rw [head_enqueued, first, Option.some_or]

theorem discard (h : w.Heads message) (named : inboxMessageId message ≠ "") (target : InboxTarget) :
    (w.discard target).Heads message := by
  rcases h with first | gone
  · cases target with
    | nextStep => exact .inl ((congrArg List.head? (nextTurn_mutation rfl)).trans first)
    | nextTurn =>
        refine .inr ?_
        have member : message ∈ (inboxOf w.log).nextTurn := List.mem_of_mem_head? first
        have all : (makeInboxSplice (inboxOf w.log) .nextTurn 0 ((inboxOf w.log).nextTurn.length) [] true).removed =
            (inboxOf w.log).nextTurn := by
          rw [make_removed, InboxState.addressed]
          rw [spliceAt_zero, spliceCount_zero, InboxState.queue, min_self]
          exact List.take_length
        refine mem_messageIds.mpr ⟨named, message, List.mem_append_right _ ?_, rfl⟩
        show message ∈ (makeInboxSplice (inboxOf w.log) .nextTurn 0 ((inboxOf w.log).nextTurn.length) [] true).removed
        rw [all]
        exact member
  · refine .inr ?_
    rw [World.discard, messageIds_append]
    exact List.mem_append_left _ gone

theorem call (h : w.Heads message) (named : inboxMessageId message ≠ "") {c : Call} (hw : w.call c = some w') :
    w'.Heads message := by
  cases c with
  | create | createFailed =>
      simp only [World.call] at hw
      repeat split at hw
      all_goals cases hw; exact h.congr rfl rfl
  | run options input refused =>
      obtain ⟨j, hj, rfl⟩ := Option.map_eq_some_iff.mp hw
      have merged : (w.updateAgent j (·.mergeExec options)).Heads message := h.congr rfl rfl
      unfold World.run
      dsimp only
      split
      · exact merged.kick j
      · split
        · split
          · exact merged
          · exact (merged.enqueue .nextTurn _).congr rfl rfl
        · refine World.Heads.kick ?_ j
          exact merged.congr rfl rfl
  | followup m options refused | steer m options refused =>
      obtain ⟨j, _, rfl⟩ := Option.map_eq_some_iff.mp hw
      have merged : (w.updateAgent j (·.mergeExec options)).Heads message := h.congr rfl rfl
      unfold World.wakeWith
      dsimp only
      split
      · exact merged
      · exact ((merged.await m).enqueue _ m).kick j
  | inject m refused =>
      obtain ⟨j, _, rfl⟩ := Option.map_eq_some_iff.mp hw
      split
      · exact h
      · exact h.enqueue _ m
  | cancel keepInbox refused =>
      have forgot : ({ w with awaited := [] } : World).Heads message := h.congr rfl rfl
      simp only [World.call] at hw
      split at hw
      · cases hw; exact forgot
      · rcases World.of_call_cancel hw with rfl | rfl | rfl | rfl
        · exact forgot
        · exact forgot.discard named _
        · exact forgot.congr rfl rfl
        · exact ((forgot.discard named _).discard named _).congr rfl rfl
  | dispose | shutdown =>
      simp only [World.call] at hw
      split at hw
      · cases hw; exact h
      · cases hw; exact h.congr rfl rfl
  | requestStop token =>
      cases hw
      exact h.congr rfl rfl
  | append event =>
      simp only [World.call] at hw
      split at hw
      · next foreign =>
          cases hw
          refine h.imp (fun first => ?_) id
          rw [inboxOf_append fun e he ht => ?_]
          · exact first
          · cases List.mem_singleton.mp he
            exact foreign (by rw [ht]; simp [loopTypes])
      · cases hw

end World.Heads

/-- The head of the queue stays until a turn claims it. -/
theorem moved_head {success : Bool} {log : Log} {a : AgentState} {p : Phase} {o : Outcome} {m : Move} {message : Json}
    (h : Moved success log a p o m) (first : (inboxOf log).nextTurn.head? = some message) :
    (inboxOf (log ++ m.events)).nextTurn.head? = some message ∨ message ∈ m.phase.hands := by
  have plain : ∀ {events : List LoopEvent}, (∀ e ∈ events, e.type ≠ "agent/inbox/spliced") →
      (inboxOf (log ++ events)).nextTurn.head? = some message := fun he => by rw [inboxOf_append he]; exact first
  cases h with
  | claimsStep t m hm => exact .inl ((congrArg List.head? (nextTurn_mutation hm)).trans first)
  | claimsTurn t claimed m hm =>
      refine .inr (List.mem_append_right _ ?_)
      obtain ⟨rest, queue⟩ := List.head?_eq_some_iff.mp first
      rw [hm, claim, make_removed, InboxState.addressed, InboxState.queue, queue]
      have count : spliceCount (inboxOf log) .nextTurn 0 1 = 1 := by
        rw [show (1 : Int) = ((1 : Nat) : Int) from rfl, spliceCount_zero, InboxState.queue, queue, List.length_cons]
        omega
      rw [spliceAt_zero, count]
      exact List.mem_cons_self
  | prompts t messages events hf | requests t events hf =>
      refine .inl (plain fun e he ht => hf e he ?_)
      rw [ht]
      simp [loopTypes]
  | ends t acc _ _ _ _ | answered t acc _ _ | asks t acc _ _ => exact .inl (plain (commit_plain t acc))
  | _ => exact .inl (plain (by simp [LoopEvent.type]))

theorem World.Heads.advance {message : Json} {w w' : World} (h : w.Heads message) {k : Nat} {o : Outcome}
    (hw : w.advance k o = some w') : w'.Heads message ∨ message ∈ w'.held := by
  have applied : ∀ {d a m}, w.drives[k]? = some d → Moved w.maxTokensAsSuccess w.log a d.phase o m →
      (w.apply k d m).Heads message ∨ message ∈ (w.apply k d m).held := by
    intro d a m hd moved
    rcases h with first | gone
    · exact (moved_head moved first).imp .inl fun claimed => mem_held (apply_drive hd) claimed
    · exact .inl (.inr gone)
  obtain ⟨d, a, m, hd, ha, moved, rfl | ⟨_, rfl⟩⟩ := World.advance_cases hw
  · exact applied hd moved
  · refine (applied hd moved).imp (fun kept => ?_) fun taken => ?_
    · unfold World.rewake
      split
      · exact kept.kick _
      · exact kept
    · rw [(World.Grown.rewake _ _ _).held]
      exact taken

/-! The first turn -/

/-- The drive has not proposed the first step of a turn yet. -/
def Phase.Unproposed : Phase → Prop
  | .looping t | .claimingStep t | .claimingTurn t _ | .proposing t _ | .closing t | .failing t _ => t.firstStep = true
  | .posted | .top | .opening | .closed | .finished _ | .resuming | .gone => True
  | _ => False

/-- The first proposal takes the seed. -/
theorem move_unproposed {success : Bool} {log : Log} {a : AgentState} {p : Phase} {o : Outcome} {m : Move}
    (h : move success log a p o = some m) (before : p.Unproposed) : m.phase.Unproposed ∨ m.agent.seed = none := by
  have moved := moved_of_move h
  cases moved with
  | proposes t claimed messages => exact .inr rfl
  | proposesOn t claimed =>
      have first : t.firstStep = true := before
      have heq : move success log a (.proposing t claimed) (.context []) =
          some { phase := .deciding t ([] ++ claimed ++ a.seed.toList), agent := { a with seed := none } } := by
        simp [move, moveDrive, movePreStep, first]
      rw [heq] at h
      have same := congrArg (fun m : Move => m.agent.seed) (Option.some.inj h)
      exact .inr same.symm
  | claimsStep t mutation hm =>
      have first : t.firstStep = true := before
      rw [first, if_pos rfl]
      exact .inl first
  | raisesStep p t what running =>
      cases p <;> first | exact before.elim | cases running
  | raisesTurn p t what between =>
      refine .inl ?_
      cases p <;> first | exact before.elim | (cases between; exact before) | cases between
  | _ => first | exact .inl before | exact .inl trivial | exact .inl rfl | exact before.elim

/-- The message is still the seed, and no turn of its driver has proposed a batch. -/
structure World.Waits (i : Nat) (message : Json) (w : World) : Prop where
  seeded : w.Seeded i message
  unproposed : ∀ d ∈ w.drives, d.agent = i → d.phase.Unproposed

theorem World.Grown.unproposed {i : Nat} {w w' : World} (h : w.Grown w')
    (before : ∀ d ∈ w.drives, d.agent = i → d.phase.Unproposed) :
    ∀ d ∈ w'.drives, d.agent = i → d.phase.Unproposed := by
  obtain ⟨new, hd, posted⟩ := h.drives
  intro d member own
  rw [hd] at member
  rcases List.mem_append.mp member with old | fresh
  · exact before d old own
  · rw [posted d fresh]
    trivial

theorem World.Waits.advance {i : Nat} {message : Json} {w w' : World} (h : w.Waits i message) {k : Nat} {o : Outcome}
    (hw : w.advance k o = some w') : w'.Waits i message ∨ message ∈ w'.held := by
  obtain ⟨d, a, m, hd, ha, hm, applied⟩ := World.advance_move hw
  have grown : (w.apply k d m).Grown w' := by
    rcases applied with rfl | ⟨_, rfl⟩
    · exact .of_touched (.refl _)
    · exact .rewake _ _ _
  by_cases taken : d.agent = i ∧ m.agent.seed = none
  · obtain ⟨rfl, none⟩ := taken
    obtain ⟨b, hb, seed⟩ := h.seeded
    obtain rfl : a = b := Option.some.inj (ha.symm.trans hb)
    have held : message ∈ m.phase.hands :=
      (moved_seeded (moved_of_move hm) seed).resolve_left (by rw [none]; exact Option.some_ne_none _ ∘ Eq.symm)
    rw [grown.held]
    exact .inr (mem_held (apply_drive hd) held)
  · refine (h.seeded.advance hw).imp (fun kept => ⟨kept, grown.unproposed fun e he own => ?_⟩) id
    rcases List.mem_or_eq_of_mem_set he with old | rfl
    · exact h.unproposed e old own
    · exact (move_unproposed hm (h.unproposed d (List.mem_of_getElem? hd) own)).resolve_right fun none => taken ⟨own, none⟩

theorem World.Waits.call {i : Nat} {message : Json} {w w' : World} (h : w.Waits i message) {c : Call}
    (kept : ¬ w.Reseeds i (.call c)) (hw : w.call c = some w') : w'.Waits i message :=
  ⟨h.seeded.call kept hw, (World.Grown.call hw).unproposed h.unproposed⟩

/-! Runs -/

section
variable {ready : Log → Prop} {start : Log} {message : Json} {w w' : World} {waits : World → Prop}
  {ok : World → Act → Prop}

/-- What waits until a batch takes it: it waits, or it was offered. -/
theorem World.waits_or_offered (named : inboxMessageId message ≠ "")
    (step : ∀ w a w', waits w → w.next a = some w' → ok w a → waits w' ∨ message ∈ w'.held)
    (dropped : ∀ d ∈ w.drives, d.phase.Dropped) (admits : admitted w.log = admitted start) (before : waits w)
    (later : (loopSystem ready).Later ok w w') : waits w' ∨ w'.Offered start (inboxMessageId message) := by
  have inv : (∀ d ∈ w'.drives, d.phase.Dropped) ∧ (∃ own, admitted w'.log = admitted start ++ own) ∧
      (waits w' ∨ w'.Offered start (inboxMessageId message)) := by
    refine later.invariant (I := fun w => (∀ d ∈ w.drives, d.phase.Dropped) ∧
      (∃ own, admitted w.log = admitted start ++ own) ∧ (waits w ∨ w.Offered start (inboxMessageId message))) ?_
      ⟨dropped, ⟨[], by rw [admits, List.append_nil]⟩, .inl before⟩
    rintro t a t' ⟨dropped, ⟨own, hown⟩, located⟩ hs hok
    obtain ⟨dropped', ⟨more, hmore⟩, onward⟩ := step_offered dropped hs
    have grown : admitted t'.log = admitted start ++ (own ++ more) := by rw [hmore, hown, List.append_assoc]
    refine ⟨dropped', ⟨_, grown⟩, ?_⟩
    rcases located with waiting | offered
    · refine (step t a t' waiting hs hok).imp id fun held => ⟨_, grown, ?_⟩
      refine mem_messageIds.mpr ⟨named, message, ?_, rfl⟩
      exact List.mem_append_left _ (List.mem_append_left _ (List.mem_append_left _ held))
    · exact .inr (onward offered)
  exact inv.2.2

end

section
variable {found : Log} {success : Bool} {w₀ w₁ w : World}

/-- A session gets its first driver, which is idle. -/
theorem World.created (h : (World.fresh found success).call .create = some w₀) :
    w₀.log = found ∧ w₀.agents = [{}] ∧ w₀.current = some 0 ∧ w₀.drives = [] := by
  cases h
  exact ⟨rfl, rfl, rfl, rfl⟩

theorem World.run_waits {options : DriveOptions} {input : String} {refused : Bool}
    (made : (World.fresh found success).call .create = some w₀) (filled : input.isEmpty = false)
    (h : w₀.call (.run options input refused) = some w₁) : w₁.Waits 0 (w₀.runInput input) := by
  obtain ⟨-, agents, current, drives⟩ := World.created made
  refine ⟨?_, (World.Grown.call h).unproposed fun d hd => absurd (drives ▸ hd) List.not_mem_nil⟩
  simp only [World.call, current, Option.map_some, Option.some.injEq] at h
  have merged : (w₀.updateAgent 0 (·.mergeExec options)).agents = [({} : AgentState).mergeExec options] := by
    simp [World.updateAgent, agents]
  rw [World.run, if_neg (by rw [filled]; exact Bool.false_ne_true),
    if_neg (by simp [World.updateAgent, agents, AgentState.mergeExec])] at h
  rw [← h]
  refine World.Seeded.kick ?_ 0
  exact ⟨_, by rw [World.updateAgent, merged]; rfl, rfl⟩

theorem World.followup_heads {message : Json} {options : DriveOptions}
    (made : (World.fresh found success).call .create = some w₀) (named : inboxMessageId message ≠ "")
    (new : inboxMessageId message ∉ (inboxOf found).ids) (h : w₀.call (.followup message options false) = some w₁) :
    (inboxOf w₁.log).nextTurn.head? = (inboxOf found).nextTurn.head?.or (some message) := by
  obtain ⟨log, -, current, -⟩ := World.created made
  simp only [World.call, current, Option.map_some, Option.some.injEq] at h
  have awaited : ((w₀.updateAgent 0 (·.mergeExec options)).await message).log = found := by
    unfold World.await
    dsimp only
    split <;> exact log
  have queued : w₁.log = (((w₀.updateAgent 0 (·.mergeExec options)).await message).enqueue .nextTurn message).log := by
    rw [← h, World.wakeWith, if_neg Bool.false_ne_true]
    rcases World.kick_cases _ 0 with hk | ⟨a, _, _, hk⟩ <;> rw [hk]
  rw [queued, World.inboxOf_enqueue, awaited, head_enqueued, if_neg (not_or.mpr ⟨named, new⟩)]

end

theorem runInput_named (w : World) (input : String) : inboxMessageId (w.runInput input) ≠ "" := by
  simp [World.runInput, Llm.userMessageData, inboxMessageId, Json.stringField]

/-- A fork starts with what the prefix leaves pending: its turns admit this and what the child is
given itself, and nothing else that was queued to the parent. The prompt of its run waits for the
first batch; one that is queued waits behind the inherited messages. -/
theorem fork_inherits_pending {σ : Type} {st : SessionStore σ} {parent child : Session} {options : CreateOptions}
    {cut : Nat} {id : Sessions.SessionId} {now : Int} {log found : Log} (reads : Reads log parent.log)
    (forked : ForkedAt parent options cut) (made : st.prepared id options now = .ok child)
    (opened : Reads found child.log) :
    inboxOf found = inboxOf (log.take cut) ∧
    (∀ Q : String → Prop, (∀ x ∈ (inboxOf (log.take cut)).ids, Q x) → ∀ w,
      (loopSystem (· = found)).Reached (fun w a => ∀ x ∈ w.handed a, Q x) w →
        ∃ own, admitted w.log = admitted found ++ own ∧ ∀ x ∈ messageIds own, Q x) ∧
    ∀ success w₀ w₁, (World.fresh found success).call .create = some w₀ →
      (∀ drive input refused, input.isEmpty = false → w₀.call (.run drive input refused) = some w₁ →
        ∀ w, (loopSystem (· = found)).Later (fun w a => ¬ w.Reseeds 0 a) w₁ w →
          w.Waits 0 (w₀.runInput input) ∨ w.Offered found (inboxMessageId (w₀.runInput input))) ∧
      ∀ message drive, inboxMessageId message ≠ "" → inboxMessageId message ∉ (inboxOf found).ids →
        w₀.call (.followup message drive false) = some w₁ →
          (inboxOf w₁.log).nextTurn.head? = (inboxOf (log.take cut)).nextTurn.head?.or (some message) ∧
          ((inboxOf (log.take cut)).nextTurn = [] → ∀ w, (loopSystem (· = found)).Later (fun _ _ => True) w₁ w →
            w.Heads message ∨ w.Offered found (inboxMessageId message)) := by
  have inherited := inboxOf_forked reads forked made opened
  have started : ∀ {success w₀ w₁ c}, (World.fresh found success).call .create = some w₀ → w₀.call c = some w₁ →
      (∀ d ∈ w₁.drives, d.phase.Dropped) ∧ admitted w₁.log = admitted found := by
    intro success w₀ w₁ c created called
    obtain ⟨log, -, -, none⟩ := World.created created
    have grown := World.Grown.call called
    exact ⟨grown.dropped fun d hd => absurd (none ▸ hd) List.not_mem_nil, by rw [grown.admitted, log]⟩
  refine ⟨inherited, fun Q pending w reached => ?_, fun success w₀ w₁ created => ⟨?_, ?_⟩⟩
  · obtain ⟨own, hown, owned⟩ := (World.Consumes.reached (inherited ▸ pending) reached).own
    refine ⟨own, hown, fun x hx => ?_⟩
    obtain ⟨named, m, hm, rfl⟩ := mem_messageIds.mp hx
    exact owned m hm named
  · intro drive input refused filled ran w later
    obtain ⟨dropped, admits⟩ := started created ran
    refine World.waits_or_offered (runInput_named w₀ input) ?_ dropped admits (World.run_waits created filled ran) later
    intro t a t' waits hs kept
    cases a with
    | call c => exact .inl (waits.call kept hs)
    | advance k o => exact waits.advance hs
  · intro message drive named new queued
    have head := World.followup_heads created named new queued
    rw [inherited] at head
    refine ⟨head, fun alone w later => ?_⟩
    obtain ⟨dropped, admits⟩ := started created queued
    rw [alone] at head
    refine World.waits_or_offered named ?_ dropped admits (.inl head) later
    intro t a t' waits hs _
    cases a with
    | call c => exact .inl (waits.call named hs)
    | advance k o => exact waits.advance hs

/-! One message, injected into an idle session that is forked then -/

def injection : Json := (makeInboxSplice {} .nextStep int64Max 0 [queued "m1"] false).data

def injected : Session where
  header := { id := "parent" }
  log := [{ type := "agent/inbox/spliced", data := injection }]

def injectedFork : Log := [.inboxSpliced injection, .other "session/end-seed" (.obj [("inherited", .uint 1)])]

theorem injected_reads : Reads [.inboxSpliced injection] injected.log := .cons ⟨rfl, rfl⟩ .nil

theorem injected_prepared : ∃ child, ({} : SessionStore Unit).prepared "child"
    (Sessions.SessionStore.forkOptions injected 1) 0 = .ok child ∧ Reads injectedFork child.log :=
  ⟨_, rfl, .cons ⟨rfl, rfl⟩ (.cons ⟨rfl, rfl⟩ .nil)⟩

/-- A turn, up to the stream of its first step. -/
def oneTurn : List Act := .call (.run {} "" false) :: advances 0 (toStream "m1" true)

/-- The child of the fork, run with a prompt. -/
theorem fork_inherits_injected : inboxOf injectedFork = inboxOf [.inboxSpliced injection] ∧
    (∀ w, (loopSystem (· = injectedFork)).Reached (fun w a => ∀ x ∈ w.handed a, x ∈ ["m1", "u2"]) w →
      ∃ own, admitted w.log = admitted injectedFork ++ own ∧ ∀ x ∈ messageIds own, x ∈ ["m1", "u2"]) ∧
    ∃ w₀ w₁, (World.fresh injectedFork false).call .create = some w₀ ∧ w₀.call (.run {} "go" false) = some w₁ ∧
      ∀ w, (loopSystem (· = injectedFork)).Later (fun w a => ¬ w.Reseeds 0 a) w₁ w →
        w.Waits 0 (w₀.runInput "go") ∨ w.Offered injectedFork (inboxMessageId (w₀.runInput "go")) := by
  obtain ⟨child, made, opened⟩ := injected_prepared
  obtain ⟨same, admits, prompt⟩ := fork_inherits_pending injected_reads (.store (by decide)) made opened
  have pending : ∀ x ∈ (inboxOf (List.take 1 [.inboxSpliced injection])).ids, x ∈ ["m1", "u2"] := by decide
  refine ⟨same, admits _ pending, _, _, rfl, rfl, fun w later => ?_⟩
  exact (prompt false _ _ rfl).1 {} "go" false (by decide) rfl w later

/-- The parent has a message, injected while it is idle, and is forked there: its own turn admits the
message, and so does a turn of the child, which nobody gave it to. -/
theorem pending_admitted_twice : ¬ ∀ (parent child : Session) (options : CreateOptions) (cut : Nat)
    (st : SessionStore Unit) (id : Sessions.SessionId) (now : Int) (w w' c : World) (found : Log) (x : String),
    (loopSystem (· = [])).Reached (fun _ _ => True) w → Reads w.log parent.log → ForkedAt parent options cut →
      st.prepared id options now = .ok child → Reads found child.log →
        (loopSystem (· = [])).Later (fun _ _ => True) w w' →
          (loopSystem (· = found)).Reached (fun w a => x ∉ w.handed a) c →
            x ∈ messageIds (admitted w'.log) → x ∉ messageIds ((admitted c.log).drop (admitted found).length) := by
  intro once
  obtain ⟨child, made, opened⟩ := injected_prepared
  obtain ⟨w, reached, log, goesOn⟩ : ∃ w, (loopSystem (· = [])).Reached (fun _ _ => True) w ∧
      w.log = [.inboxSpliced injection] ∧ (System.follow World.next (fun _ _ => true) w oneTurn).any (fun w =>
        decide ("m1" ∈ messageIds (admitted w.log))) = true := by
    refine ⟨_, .step (a := .call (.inject (queued "m1") false))
      (.step (a := .call .create) (.start ⟨[], false, rfl, rfl⟩) rfl trivial) rfl trivial, rfl, ?_⟩
    decide +kernel
  have begins : (System.follow World.next (fun w a => decide ("m1" ∉ w.handed a)) (World.fresh injectedFork false)
      (.call .create :: oneTurn)).any (fun w =>
        decide ("m1" ∈ messageIds ((admitted w.log).drop (admitted injectedFork).length))) = true := by decide +kernel
  obtain ⟨w', hw', mine⟩ := (Option.any_eq_true _ _).mp goesOn
  obtain ⟨c, hc, again⟩ := (Option.any_eq_true _ _).mp begins
  have later := System.follow_later (S := loopSystem (· = [])) (P := fun _ _ => True) (fun _ _ _ h => h)
    (fun _ _ _ => trivial) hw'
  have ran := System.follow_reached (S := loopSystem (· = injectedFork)) (P := fun w a => "m1" ∉ w.handed a)
    (fun _ _ _ h => h) (fun _ _ h => of_decide_eq_true h) hc (.start ⟨injectedFork, false, rfl, rfl⟩)
  exact once injected child _ 1 {} "child" 0 w w' c injectedFork "m1" reached (log ▸ injected_reads) (.store (by decide))
    made opened later ran (of_decide_eq_true mine) (of_decide_eq_true again)

end Araya.Agent
