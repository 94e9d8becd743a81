import Araya.Agent.Moves

/-!
Conservation of messages. A message that was accepted once is at every moment in one
place: pending, in the hands of the step that claimed it, admitted, discarded,
rejected with its batch or lost with it.
-/

namespace Araya.Agent

open Llm (StepAccumulator)

/-- How many of the messages have the id `x`. -/
def tally (x : String) (messages : List Json) : Nat := (messageIds messages).count x

/-- A rejected batch is in nobody's hands. -/
def Phase.Dropped : Phase → Prop
  | .decided _ true messages => messages = []
  | _ => True

namespace World

/-- What the drives have claimed and not admitted yet. -/
def held (w : World) : List Json := w.drives.flatMap (·.phase.hands)

/-- The places where a message with the id `x` is. -/
def places (w : World) (x : String) : Nat :=
  (inboxOf w.log).ids.count x + tally x w.discarded + tally x w.held + tally x (admitted w.log) +
    tally x w.rejected + tally x w.lost

/-- The id stays the message's own: no contribution and no seed has it, and no pre-step
listener repeats it. -/
def Unrepeated (w : World) (x : String) : Act → Prop
  | .call (.run _ input _) => inboxMessageId (w.runInput input) ≠ x
  | .advance _ (.context messages) => tally x messages = 0
  | .advance i (.decision false messages) =>
    ∀ d ∈ w.drives[i]?, tally x messages ≤ tally x d.phase.hands
  | _ => True

instance (w : World) (x : String) : (a : Act) → Decidable (w.Unrepeated x a)
  | .call (.run _ input _) => inferInstanceAs (Decidable (inboxMessageId (w.runInput input) ≠ x))
  | .advance _ (.context messages) => inferInstanceAs (Decidable (tally x messages = 0))
  | .advance i (.decision false messages) =>
    inferInstanceAs (Decidable (∀ d ∈ w.drives[i]?, tally x messages ≤ tally x d.phase.hands))
  | .advance _ (.decision true _) | .advance _ .ok | .advance _ (.raise _) | .advance _ (.events _)
  | .advance _ (.chunks _) | .advance _ (.retry _) | .advance _ (.result _) | .call .create
  | .call .createFailed | .call (.followup _ _ _) | .call (.steer _ _ _) | .call (.inject _ _)
  | .call (.cancel _ _) | .call .dispose | .call .shutdown | .call (.requestStop _)
  | .call (.append _) => .isTrue trivial

/-- A message accepted at most once is in as many places. -/
structure Accounted (x : String) (w : World) : Prop where
  located : tally x w.accepted ≤ 1 → w.places x = tally x w.accepted
  seeds : ∀ a ∈ w.agents, ∀ s ∈ a.seed, inboxMessageId s ≠ x
  dropped : ∀ d ∈ w.drives, d.phase.Dropped

end World

section
variable {x : String}

@[simp] theorem tally_nil : tally x [] = 0 := rfl

@[simp] theorem tally_append (a b : List Json) : tally x (a ++ b) = tally x a + tally x b := by
  simp [tally, messageIds_append]

theorem tally_cons (hx : x ≠ "") (m : Json) (ms : List Json) :
    tally x (m :: ms) = (if inboxMessageId m = x then 1 else 0) + tally x ms := by
  by_cases hm : inboxMessageId m = x
  · subst hm
    simp [tally, messageIds_cons, hx]
    omega
  · by_cases he : inboxMessageId m = "" <;> simp [tally, messageIds_cons, he, hm, Ne.symm hx]

@[simp] theorem admitted_append (a b : Log) : admitted (a ++ b) = admitted a ++ admitted b :=
  List.filterMap_append

theorem admitted_foreign {events : List LoopEvent} (h : ∀ e ∈ events, e.Foreign) : admitted events = [] := by
  refine List.filterMap_eq_nil_iff.mpr fun e he => ?_
  cases e with
  | userMessage data => exact absurd (by simp [LoopEvent.type, loopTypes]) (h _ he)
  | _ => rfl

theorem admitted_mutation (m : InboxMutation) : admitted m.events = [] := by
  unfold InboxMutation.events
  split <;> rfl

theorem admitted_commit {success : Bool} {log : Log} {turn step : Nat} {acc : StepAccumulator} :
    admitted (commitModelOutcome log turn step acc success).events = [] := by
  rcases commit_cases log turn step acc success with ⟨message, hc, _⟩ | ⟨failure, hc⟩ | hc <;>
    rw [hc] <;> rfl

theorem tally_flatMap_set {α : Type} (f : α → List Json) {l : List α} {i : Nat} {d : α} (d' : α)
    (h : l[i]? = some d) : tally x ((l.set i d').flatMap f) + tally x (f d) =
      tally x (l.flatMap f) + tally x (f d') := by
  induction l generalizing i with
  | nil => cases h
  | cons e rest ih =>
      cases i with
      | zero =>
          cases h
          simp only [List.set_cons_zero, List.flatMap_cons, tally_append]
          omega
      | succ i =>
          have step := ih (i := i) h
          simp only [List.set_cons_succ, List.flatMap_cons, tally_append]
          omega

theorem tally_filter (hx : x ≠ "") (keep : String → Bool) (messages : List Json) :
    tally x (messages.filter fun m => keep (inboxMessageId m)) = if keep x then tally x messages else 0 := by
  induction messages with
  | nil => simp
  | cons m rest ih =>
      rw [List.filter_cons, tally_cons hx]
      by_cases hm : inboxMessageId m = x
      · subst hm
        split <;> simp_all [tally_cons hx]
      · split <;> simp [tally_cons hx, hm, ih]

theorem tally_pos (hx : x ≠ "") {messages : List Json} :
    0 < tally x messages ↔ x ∈ messages.map inboxMessageId := by
  simp [tally, messageIds, List.count_pos_iff, hx]

/-- What a decision leaves out and what it keeps are the batch, if it repeats nothing. -/
theorem tally_leftOut (hx : x ≠ "") {proposed messages : List Json} (le : tally x messages ≤ tally x proposed)
    (once : tally x proposed ≤ 1) :
    tally x messages + tally x (leftOut proposed messages) = tally x proposed := by
  have left := tally_filter hx (fun id => decide (id ∉ messages.map inboxMessageId)) proposed
  have pos : 0 < tally x messages ↔ x ∈ messages.map inboxMessageId := tally_pos hx
  simp only [leftOut]
  rw [left]
  by_cases hin : x ∈ messages.map inboxMessageId
  · have := pos.mpr hin
    simp only [hin, not_true_eq_false, decide_false, Bool.false_eq_true, if_false]
    omega
  · have : tally x messages = 0 := by
      by_contra h
      exact hin (pos.mp (by omega))
    simp only [hin, not_false_eq_true, decide_true, if_true]
    omega

end

/-- What a move claims it holds, admits, rejects or loses. -/
theorem moved_tally {success : Bool} {log : Log} {a : AgentState} {p : Phase} {o : Outcome} {m : Move}
    {x : String} (h : Moved success log a p o m) (hx : x ≠ "") (seed : ∀ s ∈ a.seed, inboxMessageId s ≠ x)
    (context : ∀ messages, o = .context messages → tally x messages = 0)
    (decision : ∀ messages, o = .decision false messages → tally x messages ≤ tally x p.hands)
    (once : tally x p.hands ≤ 1) (dropped : p.Dropped) :
    tally x m.phase.hands + tally x (admitted m.events) + tally x m.rejected + tally x m.lost =
      tally x p.hands + tally x m.claimed := by
  cases h with
  | claimsStep t m hm =>
      simp only [admitted_mutation, tally_nil]
      split <;> simp [Phase.hands]
  | claimsTurn t claimed m hm => simp [admitted_mutation, Phase.hands]
  | proposes t claimed messages =>
      have none : tally x a.seed.toList = 0 := by
        cases hs : a.seed with
        | none => rfl
        | some s => simp [tally_cons hx, seed s hs]
      simp [Phase.hands, context messages rfl, none, admitted]
  | rejects t proposed messages => simp [Phase.hands, admitted]
  | blocked t messages =>
      cases (dropped : messages = [])
      rfl
  | decides t proposed messages =>
      have kept := tally_leftOut hx (decision messages rfl) once
      simp only [Phase.hands, admitted, List.filterMap_nil, tally_nil] at kept ⊢
      omega
  | prompts t messages events hf | requests t events hf => simp [admitted_foreign hf, Phase.hands]
  | admits t message rest =>
      simp [Phase.hands, admitted, tally_cons hx]
      omega
  | ends t acc _ _ _ _ | answered t acc _ _ | asks t acc _ _ => simp [admitted_commit, Phase.hands]
  | raisesStep p t what hp | raisesTurn p t what hp => simp [Phase.hands, admitted]
  | _ => simp [Phase.hands, admitted]

theorem moved_dropped {success : Bool} {log : Log} {a : AgentState} {p : Phase} {o : Outcome} {m : Move}
    (h : Moved success log a p o m) : m.phase.Dropped := by
  cases h with
  | claimsStep t m hm =>
      simp only
      split <;> trivial
  | rejects _ _ _ => exact rfl
  | _ => trivial

namespace World
variable {w w' : World} {i : Nat} {x : String}

/-! The calls -/

theorem Accounted.updateAgent (inv : w.Accounted x) (i : Nat) {f : AgentState → AgentState}
    (hf : ∀ a, ∀ s ∈ (f a).seed, s ∈ a.seed ∨ inboxMessageId s ≠ x) : (w.updateAgent i f).Accounted x := by
  exact ⟨inv.located, updateAgent_seeds i hf inv.seeds, inv.dropped⟩

theorem Accounted.kick (inv : w.Accounted x) (i : Nat) : (w.kick i).Accounted x := by
  rcases w.kick_cases i with hk | ⟨a, _, _, hk⟩ <;> rw [hk]
  · exact inv
  · have updated := inv.updateAgent i (f := fun a =>
      { a with running := true, stop := a.callerStop.any (· ∈ w.stopped), bridge := a.callerStop })
      fun a s hs => .inl hs
    refine ⟨?_, updated.seeds, fun d hd => ?_⟩
    · simpa [places, held, Phase.hands] using inv.located
    · rcases List.mem_append.mp hd with hold | hnew
      · exact inv.dropped d hold
      · cases List.mem_singleton.mp hnew
        trivial

theorem Accounted.await (inv : w.Accounted x) (message : Json) : (w.await message).Accounted x := by
  simp only [World.await]
  split
  · exact inv
  · exact ⟨inv.located, inv.seeds, inv.dropped⟩

theorem Accounted.enqueue (inv : w.Accounted x) (hx : x ≠ "") (target : InboxTarget) (message : Json) :
    (w.enqueue target message).Accounted x := by
  refine ⟨fun once => ?_, inv.seeds, inv.dropped⟩
  have entered := count_enqueue w target message hx
  have accepted : tally x (w.enqueue target message).accepted =
      tally x w.accepted + if inboxMessageId message = x then 1 else 0 := by
    simp [World.enqueue, tally_cons hx]
  have same : (w.enqueue target message).places x = (w.places x - (inboxOf w.log).ids.count x) +
      (inboxOf (w.enqueue target message).log).ids.count x := by
    simp only [places, World.enqueue, held, admitted_append]
    simp [admitted]
    omega
  have before := inv.located (by omega)
  have part : (inboxOf w.log).ids.count x ≤ w.places x := by
    simp only [places]
    omega
  rw [same, entered, accepted]
  by_cases hm : inboxMessageId message = x
  · -- the one message with this id was not pending before
    have empty : (inboxOf w.log).ids.count x = 0 := by
      rw [if_pos hm] at accepted
      omega
    have new : x ∉ (inboxOf w.log).ids := List.count_eq_zero.mp empty
    rw [if_pos hm, if_pos ⟨hm, new⟩]
    omega
  · rw [if_neg hm, if_neg fun h => hm h.1]
    omega

theorem Accounted.discard (inv : w.Accounted x) (target : InboxTarget) : (w.discard target).Accounted x := by
  refine ⟨fun once => ?_, inv.seeds, inv.dropped⟩
  generalize hm : makeInboxSplice (inboxOf w.log) target 0 ((inboxOf w.log).queue target).length [] true = m
  have removed := count_inboxOf_removed hm.symm x
  have before := inv.located once
  simp only [places, held, tally, World.discard, hm, admitted_append, admitted_mutation, List.append_nil, messageIds_append,
    List.count_append] at before removed ⊢
  omega

theorem Accounted.requestAbort (inv : w.Accounted x) (i : Nat) : (w.requestAbort i).Accounted x := by
  refine inv.updateAgent i fun a s hs => .inl ?_
  split at hs <;> exact hs

theorem Accounted.forget (inv : w.Accounted x) : ({ w with awaited := [] } : World).Accounted x :=
  ⟨inv.located, inv.seeds, inv.dropped⟩

theorem Accounted.cancel (inv : w.Accounted x) {keepInbox : Bool} {refused : Option InboxTarget}
    (h : w.cancel i keepInbox refused = some w') : w'.Accounted x := by
  rcases of_call_cancel h with rfl | rfl | rfl | rfl
  · exact inv
  · exact inv.discard _
  · exact inv.requestAbort i
  · exact ((inv.discard _).discard _).requestAbort i

theorem Accounted.append (inv : w.Accounted x) {e : LoopEvent} (he : e.Foreign) :
    ({ w with log := w.log ++ [e] } : World).Accounted x := by
  refine ⟨fun once => ?_, inv.seeds, inv.dropped⟩
  have spliced : inboxOf (w.log ++ [e]) = inboxOf w.log := by
    refine inboxOf_append fun e' he' ht => he ?_
    rw [List.mem_singleton.mp he'] at ht
    rw [ht]
    simp [loopTypes]
  have user : admitted [e] = [] := by
    cases e with
    | userMessage data => exact absurd (by simp [LoopEvent.type, loopTypes]) he
    | _ => rfl
  have before := inv.located once
  simpa [World.places, spliced, user, World.held] using before

theorem Accounted.run (inv : w.Accounted x) (hx : x ≠ "") (i : Nat) (options : DriveOptions) (input : String)
    (refused : Bool) (other : inboxMessageId (w.runInput input) ≠ x) :
    (w.run i options input refused).Accounted x := by
  have merged := inv.updateAgent i (f := (·.mergeExec options)) fun a s hs => .inl hs
  simp only [World.run]
  split
  · exact merged.kick i
  · split
    · split
      · exact merged
      · refine (merged.enqueue hx _ _).updateAgent i ?_
        exact fun a s hs => .inl hs
    · refine Accounted.kick (merged.updateAgent i ?_) i
      intro a s hs
      cases hs
      exact .inr other

theorem Accounted.call (inv : w.Accounted x) (hx : x ≠ "") {c : Call} (h : w.call c = some w')
    (own : w.Unrepeated x (.call c)) : w'.Accounted x := by
  cases c with
  | create =>
      simp only [World.call] at h
      split at h <;> cases h
      · exact inv
      · refine ⟨inv.located, fun a ha s hs => ?_, inv.dropped⟩
        rcases List.mem_append.mp ha with hold | hnew
        · exact inv.seeds a hold s hs
        · cases List.mem_singleton.mp hnew
          cases hs
  | createFailed =>
      cases h
      exact ⟨inv.located, inv.seeds, inv.dropped⟩
  | run options input refused =>
      obtain ⟨i, _, rfl⟩ := Option.map_eq_some_iff.mp h
      exact inv.run hx i options input refused own
  | followup message options refused | steer message options refused =>
      obtain ⟨i, _, rfl⟩ := Option.map_eq_some_iff.mp h
      have merged := inv.updateAgent i (f := (·.mergeExec options)) fun a s hs => .inl hs
      simp only [World.wakeWith]
      split
      · exact merged
      · exact ((merged.await message).enqueue hx _ message).kick i
  | inject message refused =>
      obtain ⟨i, _, rfl⟩ := Option.map_eq_some_iff.mp h
      cases refused with
      | true => exact inv
      | false => exact inv.enqueue hx _ message
  | cancel keepInbox refused =>
      simp only [World.call] at h
      split at h
      · cases h
        exact inv.forget
      · exact inv.forget.cancel h
  | dispose | shutdown =>
      simp only [World.call] at h
      split at h <;> cases h
      · exact inv
      · next i _ =>
          have aborted := inv.requestAbort i
          exact ⟨aborted.located, aborted.seeds, aborted.dropped⟩
  | requestStop token =>
      cases h
      refine ⟨inv.located, fun a ha s hs => ?_, inv.dropped⟩
      obtain ⟨b, hb, rfl⟩ := List.mem_map.mp ha
      split at hs <;> exact inv.seeds b hb s hs
  | append event =>
      simp only [World.call] at h
      split at h
      · next hf =>
          cases h
          exact inv.append hf
      · cases h

/-! The drives -/

section
variable {d : Drive} {a : AgentState} {o : Outcome} {m : Move}

theorem Accounted.apply (inv : w.Accounted x) (hx : x ≠ "") (hd : w.drives[i]? = some d)
    (ha : w.agents[d.agent]? = some a) (moved : Moved w.maxTokensAsSuccess w.log a d.phase o m)
    (own : w.Unrepeated x (.advance i o)) : (w.apply i d m).Accounted x := by
  have hmem := List.mem_of_getElem? hd
  refine ⟨fun once => ?_, fun b hb s hs => ?_, fun e he => ?_⟩
  · have before := inv.located once
    have moves := tally_flatMap_set (x := x) (fun e : Drive => e.phase.hands) { d with phase := m.phase } hd
    have claims := moved_ids moved x
    have held : tally x d.phase.hands ≤ tally x w.held := by
      have left := tally_flatMap_set (x := x) (fun e : Drive => e.phase.hands) { d with phase := .gone } hd
      simp only [World.held, Phase.hands, tally_nil] at left ⊢
      omega
    have kept := moved_tally moved hx (inv.seeds a (List.mem_of_getElem? ha)) ?_ ?_ ?_ (inv.dropped d hmem)
    · simp only [World.places, World.held, World.apply, admitted_append, tally, messageIds_append,
        List.count_append] at *
      omega
    · rintro messages rfl
      exact own
    · rintro messages rfl
      exact own d hd
    · simp only [World.apply, World.places] at once before
      omega
  · rcases List.mem_or_eq_of_mem_set hb with hold | rfl
    · exact inv.seeds b hold s hs
    · rcases moved_seed moved with same | none
      · exact inv.seeds a (List.mem_of_getElem? ha) s (same ▸ hs)
      · rw [none] at hs
        cases hs
  · rcases List.mem_or_eq_of_mem_set he with hold | rfl
    · exact inv.dropped e hold
    · exact moved_dropped moved

end

theorem accounted_reached {ready : Log → Prop} (hx : x ≠ "")
    (h : (loopSystem ready).Reached (fun w a => w.Unrepeated x a) w) : w.Accounted x := by
  refine System.Reached.invariant ?_ ?_ h
  · rintro _ ⟨log, success, _, rfl⟩
    refine ⟨fun _ => ?_, fun a ha => absurd ha List.not_mem_nil, fun d hd => absurd hd List.not_mem_nil⟩
    simp only [World.places, World.fresh, World.held, List.flatMap_nil, tally_nil, tally_append, InboxState.ids,
      List.count_append]
    simp only [tally]
    omega
  · intro w a w' _ inv hs own
    cases a with
    | call c => exact inv.call hx hs own
    | advance i o =>
        obtain ⟨d, a, m, hd, ha, moved, hw⟩ := advance_cases hs
        have applied := inv.apply hx hd ha moved own
        rcases hw with rfl | ⟨_, rfl⟩
        · exact applied
        · unfold World.rewake
          split
          · exact applied.kick _
          · exact applied

end World

/-- Conservation: a message that was accepted once is in one place. -/
theorem message_conserved {ready : Log → Prop} {x : String} (hx : x ≠ "") {w : World}
    (h : (loopSystem ready).Reached (fun w a => w.Unrepeated x a) w)
    (once : (messageIds w.accepted).count x = 1) :
    (inboxOf w.log).ids.count x + (messageIds w.discarded).count x + (messageIds w.held).count x +
      (messageIds (admitted w.log)).count x + (messageIds w.rejected).count x +
      (messageIds w.lost).count x = 1 :=
  ((World.accounted_reached hx h).located (le_of_eq once)).trans once

/-- Two messages are claimed together; a listener drops one, and the other is admitted. -/
theorem message_conserved_dropped : "m2" ≠ "" ∧ ∃ w, (loopSystem fun _ => True).Reached
    (fun w a => w.Unrepeated "m2" a) w ∧ (messageIds w.accepted).count "m2" = 1 ∧
    (inboxOf w.log).ids.count "m2" + (messageIds w.discarded).count "m2" + (messageIds w.held).count "m2" +
      (messageIds (admitted w.log)).count "m2" + (messageIds w.rejected).count "m2" +
      (messageIds w.lost).count "m2" = 1 := by
  have played : (System.follow World.next (fun w a => decide (w.Unrepeated "m2" a)) (World.fresh [] false)
      ([.call .create, .call (.inject (queued "m2") false), .call (.followup (queued "m1") {} false)] ++
        advances 0 (toStream "m1" true))).any (fun w =>
          decide ((messageIds w.accepted).count "m2" = 1 ∧ messageIds w.rejected = ["m2"])) = true := by
    decide +kernel
  obtain ⟨w, hw, hplayed⟩ := (Option.any_eq_true _ _).mp played
  have once := (of_decide_eq_true hplayed).1
  have reached := System.follow_reached (S := loopSystem fun _ => True)
    (P := fun w a => w.Unrepeated "m2" a) (fun _ _ _ h => h) (fun _ _ h => of_decide_eq_true h) hw
    (.start ⟨[], false, trivial, rfl⟩)
  exact ⟨by decide, w, reached, once, message_conserved (by decide) reached once⟩

/-- A context producer raises after the claim: nobody holds the message, and it is
neither pending nor admitted, nor did a listener reject it. -/
theorem message_dropped : ¬ ∀ x w, x ≠ "" →
    (loopSystem fun _ => True).Reached (fun w a => w.Unrepeated x a) w →
    (messageIds w.accepted).count x = 1 → (messageIds w.held).count x = 0 →
    (inboxOf w.log).ids.count x + (messageIds w.discarded).count x + (messageIds (admitted w.log)).count x +
      (messageIds w.rejected).count x = 1 := by
  intro kept
  have played : (System.follow World.next (fun w a => decide (w.Unrepeated "m1" a)) (World.fresh [] false)
      ([.call .create, .call (.followup (queued "m1") {} false)] ++
        advances 0 [.ok, .ok, .ok, .ok, .ok, .ok, .raise "producer failed", .ok, .ok, .ok])).any (fun w =>
          decide ((messageIds w.accepted).count "m1" = 1 ∧ (messageIds w.held).count "m1" = 0 ∧
            (inboxOf w.log).ids.count "m1" + (messageIds w.discarded).count "m1" +
              (messageIds (admitted w.log)).count "m1" + (messageIds w.rejected).count "m1" = 0)) = true := by
    decide +kernel
  obtain ⟨w, hw, hplayed⟩ := (Option.any_eq_true _ _).mp played
  obtain ⟨once, held, gone⟩ := of_decide_eq_true hplayed
  have reached := System.follow_reached (S := loopSystem fun _ => True)
    (P := fun w a => w.Unrepeated "m1" a) (fun _ _ _ h => h) (fun _ _ h => of_decide_eq_true h) hw
    (.start ⟨[], false, trivial, rfl⟩)
  have one := kept "m1" w (by decide) reached once held
  rw [gone] at one
  cases one

end Araya.Agent
