import Araya.Agent.Drives

/-!
One drive and well-nested brackets. While no driver is made beside an unfinished
drive and no closing event is refused, the turns and steps of a log follow each
other, each inside the one it belongs to, and one drive at most appends.
-/

namespace Araya.Agent

/-! Nesting -/

/-- What is open after a log; `idle` keeps the number of the last turn. -/
inductive Bracket where
  | idle (turn : Nat)
  | inTurn (turn : Nat)
  | inStep (turn step : Nat)
  deriving DecidableEq, Repr

namespace Bracket

/-- A turn opens with the next number, a step inside a turn, and each closes alone. -/
def feed : Bracket → LoopEvent → Option Bracket
  | .idle n, .turnStart turn => if turn = n + 1 then some (.inTurn turn) else none
  | .inTurn n, .stepStart turn step => if turn = n then some (.inStep turn step) else none
  | .inStep n k, .stepEnd turn step => if turn = n ∧ step = k then some (.inTurn n) else none
  | .inTurn n, .turnEnd turn _ _ => if turn = n then some (.idle n) else none
  | _, .turnStart _ | _, .turnEnd .. | _, .stepStart .. | _, .stepEnd .. => none
  | b, _ => some b

/-- The last turn that was opened. -/
def turn : Bracket → Nat
  | .idle n | .inTurn n | .inStep n _ => n

end Bracket

def bracketOf (log : Log) : Option Bracket := log.foldlM Bracket.feed (.idle 0)

/-- Turns and steps are nested and do not overlap, and turns are numbered one by one. -/
def Nested (log : Log) : Prop := (bracketOf log).isSome = true

/-- Every turn is closed, and the numbering goes on after the last one. -/
def Closed (log : Log) : Prop := ∃ n, bracketOf log = some (.idle n) ∧ nextTurn log = n + 1

theorem bracketOf_append (log events : Log) :
    bracketOf (log ++ events) = (bracketOf log).bind fun b => events.foldlM Bracket.feed b := by
  simp [bracketOf, List.foldlM_append]

/-- An event that opens and closes nothing. -/
def LoopEvent.Inner : LoopEvent → Prop
  | .turnStart _ | .turnEnd .. | .stepStart .. | .stepEnd .. => False
  | e => e.type ≠ "turn/start"

theorem Bracket.feed_inner {b : Bracket} {e : LoopEvent} (h : e.Inner) : b.feed e = some b := by
  cases e <;> first | exact h.elim | (cases b <;> rfl)

theorem nextTurn_inner {log : Log} {e : LoopEvent} (h : e.Inner) : nextTurn (log ++ [e]) = nextTurn log := by
  have hz : startedTurn e = 0 := startedTurn_of_type (by cases e <;> trivial)
  rw [nextTurn_concat, hz]
  simp [nextTurn]

theorem LoopEvent.Aside.inner {e : LoopEvent} (h : e.Aside) : e.Inner := by
  cases e with
  | inboxSpliced _ => simp [LoopEvent.Inner, LoopEvent.type]
  | other type _ => exact fun ht => h (by simp [LoopEvent.type] at ht; simp [LoopEvent.type, ht, loopTypes])
  | _ => exact absurd h (by simp [LoopEvent.Aside, LoopEvent.Foreign, LoopEvent.type, loopTypes])

/-- After the log `b` is open, and the next turn follows its last one. -/
structure At (log : Log) (b : Bracket) : Prop where
  open' : bracketOf log = some b
  next : nextTurn log = b.turn + 1

namespace At
variable {log : Log} {b : Bracket}

theorem inner (h : At log b) {events : List LoopEvent} (hi : ∀ e ∈ events, e.Inner) :
    At (log ++ events) b := by
  induction events generalizing log with
  | nil => simpa using h
  | cons e rest ih =>
      have one : At (log ++ [e]) b := by
        refine ⟨?_, (nextTurn_inner (hi e List.mem_cons_self)).trans h.next⟩
        rw [bracketOf_append, h.open']
        simp [Bracket.feed_inner (hi e List.mem_cons_self)]
      rw [List.append_cons]
      exact ih one fun e' he => hi e' (List.mem_cons_of_mem _ he)

theorem concat (h : At log b) {e : LoopEvent} {b' : Bracket} (hb : b.feed e = some b')
    (ht : b'.turn = max b.turn (startedTurn e)) : At (log ++ [e]) b' := by
  refine ⟨?_, ?_⟩
  · rw [bracketOf_append, h.open']
    simp [hb]
  · rw [nextTurn_concat, h.next, ht]
    omega

theorem opens {n : Nat} (h : At log (.idle n)) :
    At (log ++ [.turnStart (nextTurn log)]) (.inTurn (nextTurn log)) := by
  rw [h.next]
  exact h.concat (by simp [Bracket.feed, Bracket.turn]) (by simp [Bracket.turn])

variable {turn step : Nat}

theorem starts (h : At log (.inTurn turn)) : At (log ++ [.stepStart turn step]) (.inStep turn step) := by
  refine h.concat (by simp [Bracket.feed]) ?_
  rw [startedTurn_of_type (by simp [LoopEvent.type])]
  exact (Nat.max_zero _).symm

theorem ends (h : At log (.inStep turn step)) : At (log ++ [.stepEnd turn step]) (.inTurn turn) := by
  refine h.concat (by simp [Bracket.feed]) ?_
  rw [startedTurn_of_type (by simp [LoopEvent.type])]
  exact (Nat.max_zero _).symm

theorem closes (h : At log (.inTurn turn)) (reason : RunStatus) (failure : Option Llm.LlmFailure) :
    At (log ++ [.turnEnd turn reason failure]) (.idle turn) := by
  refine h.concat (by simp [Bracket.feed]) ?_
  rw [startedTurn_of_type (by simp [LoopEvent.type])]
  exact (Nat.max_zero _).symm

end At

/-! The bracket a drive is in -/

namespace Phase

/-- The next append closes a step or a turn. -/
def Closing : Phase → Prop
  | .stepped _ _ | .unwinding _ _ | .closing _ | .failing _ _ => True
  | _ => False

def Fits (b : Bracket) : Phase → Prop
  | .looping t | .claimingStep t | .claimingTurn t _ | .proposing t _ | .deciding t _ | .decided t _ _
  | .starting t _ | .checking t | .stopping t | .rechecking t | .closing t
  | .failing t _ => b = .inTurn t.turn
  | .prompting t _ | .admitting t _ | .requesting t | .streaming t | .retrying t _ | .committing t _
  | .calling t _ _ | .called t _ _ _ | .invoking t _ _ _ | .answering t _ _ _ _ | .stepped t _
  | .unwinding t _ => b = .inStep t.turn t.step
  | .posted | .top | .opening | .closed | .finished _ => ∃ n, b = .idle n
  | .resuming | .gone => True

theorem fits_running {p : Phase} {t : TurnState} {b : Bracket} (h : p.running = some t) :
    p.Fits b ↔ b = .inStep t.turn t.step := by
  cases p <;> cases h <;> rfl

theorem fits_between {p : Phase} {t : TurnState} {b : Bracket} (h : p.between = some t) :
    p.Fits b ↔ b = .inTurn t.turn := by
  cases p <;> cases h <;> rfl

end Phase

theorem claim_inner (m : InboxMutation) : ∀ e ∈ m.events, e.Inner := by
  intro e he
  unfold InboxMutation.events at he
  split at he
  · cases he
  · cases List.mem_singleton.mp he
    simp [LoopEvent.Inner, LoopEvent.type]

theorem commit_inner (log : Log) (turn step : Nat) (acc : Llm.StepAccumulator) (success : Bool) :
    ∀ e ∈ (commitModelOutcome log turn step acc success).events, e.Inner := by
  rcases commit_cases log turn step acc success with ⟨message, h, _⟩ | ⟨failure, h⟩ | h <;> rw [h] <;>
    simp [LoopEvent.Inner, LoopEvent.type]

theorem LoopEvent.Foreign.aside {e : LoopEvent} (h : e.Foreign) : e.Aside := by
  cases e <;> trivial

/-- One move keeps to its bracket, unless a closing event is refused. -/
theorem moved_fits {success : Bool} {log : Log} {a : AgentState} {p : Phase} {o : Outcome} {m : Move}
    {b : Bracket} (h : Moved success log a p o m) (now : At log b) (fits : p.Fits b) (live : ¬ p.Settled)
    (kept : ∀ what, o = .raise what → ¬ p.Closing) :
    ∃ b', At (log ++ m.events) b' ∧ m.phase.Fits b' ∧ (m.phase.Settled → ∃ n, b' = .idle n) := by
  cases h with
  | opens =>
      obtain ⟨n, rfl⟩ := fits
      exact ⟨_, now.opens, rfl, fun hs => hs.elim⟩
  | starts t messages => cases fits; exact ⟨_, now.starts, rfl, fun hs => hs.elim⟩
  | steps t exit => cases fits; exact ⟨_, now.ends, rfl, fun hs => hs.elim⟩
  | unwinds t what => cases fits; exact ⟨_, now.ends, rfl, fun hs => hs.elim⟩
  | closes t => cases fits; exact ⟨_, now.closes _ _, ⟨_, rfl⟩, fun hs => hs.elim⟩
  | fails t what => cases fits; exact ⟨_, now.closes _ _, ⟨_, rfl⟩, fun hs => hs.elim⟩
  | stepsNot _ _ what | unwindsNot _ _ what | closesNot _ what | failsNot _ _ what =>
      exact absurd trivial (kept what rfl)
  | claimsStep t m hm =>
      refine ⟨b, now.inner (claim_inner m), ?_, ?_⟩ <;> simp only <;> split <;>
        first | exact fits | exact fun hs => hs.elim
  | claimsTurn t claimed m hm => exact ⟨b, now.inner (claim_inner m), fits, fun hs => hs.elim⟩
  | prompts t messages events hf | requests t events hf =>
      exact ⟨b, now.inner fun e he => (hf e he).aside.inner, fits, fun hs => hs.elim⟩
  | admits t message rest =>
      exact ⟨b, now.inner (by simp [LoopEvent.Inner, LoopEvent.type]), fits, fun hs => hs.elim⟩
  | ends t acc status a' _ _ | answered t acc _ _ | asks t acc _ _ =>
      exact ⟨b, now.inner (commit_inner _ _ _ _ _), fits, fun hs => hs.elim⟩
  | calls t call calls o | answers t call r calls o =>
      exact ⟨b, now.inner (by simp [LoopEvent.Inner, LoopEvent.type]), fits, fun hs => hs.elim⟩
  | raisesStep p t what hp =>
      exact ⟨b, by simpa using now, (Phase.fits_running hp).mp fits, fun hs => hs.elim⟩
  | raisesTurn p t what hp =>
      exact ⟨b, by simpa using now, (Phase.fits_between hp).mp fits, fun hs => hs.elim⟩
  | finishes what last => exact ⟨b, by simpa using now, trivial, fun _ => fits⟩
  | resumes => exact absurd trivial live
  | _ => exact ⟨b, by simpa using now, fits, fun hs => hs.elim⟩

namespace World

/-- The drive that may append, if any, is in the bracket that the log has open. -/
structure Bracketed (w : World) : Prop where
  owned : w.Owned
  bracket : ∃ b, At w.log b ∧ (∀ d ∈ w.drives, d.Appending → d.phase.Fits b) ∧
    ((∀ d ∈ w.drives, d.phase.Settled) → ∃ n, b = .idle n)

variable {w w' : World} {i : Nat}

theorem Bracketed.touched (inv : w.Bracketed) (h : w.Touched w') : w'.Bracketed := by
  obtain ⟨events, hlog, aside⟩ := h.log
  obtain ⟨b, now, fits, idle⟩ := inv.bracket
  refine ⟨inv.owned.touched h, b, ?_, ?_, ?_⟩
  · rw [hlog]
    exact now.inner fun e he => (aside e he).inner
  · rw [h.drives]
    exact fits
  · rw [h.drives]
    exact idle

theorem Bracketed.kick (inv : w.Bracketed) (hi : i + 1 = w.agents.length) : (w.kick i).Bracketed := by
  refine ⟨inv.owned.kick hi, ?_⟩
  obtain ⟨b, now, fits, idle⟩ := inv.bracket
  rcases w.kick_cases i with hk | ⟨a, ha, hr, hk⟩
  · rw [hk]
    exact ⟨b, now, fits, idle⟩
  · rw [hk]
    have settled := inv.owned.settled hi ha hr
    obtain ⟨n, rfl⟩ := idle settled
    refine ⟨.idle n, now, fun d hd live => ?_, fun _ => ⟨n, rfl⟩⟩
    rcases List.mem_append.mp hd with hold | hnew
    · exact absurd (settled d hold) live
    · rw [List.mem_singleton.mp hnew]
      exact ⟨n, rfl⟩

theorem Bracketed.apply (inv : w.Bracketed) {d : Drive} {a : AgentState} {o : Outcome} {m : Move}
    (hd : w.drives[i]? = some d) (ha : w.agents[d.agent]? = some a)
    (moved : Moved w.maxTokensAsSuccess w.log a d.phase o m)
    (kept : ∀ what, o = .raise what → ¬ d.phase.Closing) : (w.apply i d m).Bracketed := by
  refine ⟨inv.owned.apply hd ha moved, ?_⟩
  have hmem := List.mem_of_getElem? hd
  have hself : (w.apply i d m).drives[i]? = some { d with phase := m.phase } :=
    List.getElem?_set_self (List.getElem?_eq_some_iff.mp hd).1
  obtain ⟨b, now, fits, idle⟩ := inv.bracket
  by_cases hs : d.phase.Settled
  · obtain ⟨hphase, hevents, _⟩ := moved_settled moved hs
    refine ⟨b, by simpa [World.apply, hevents] using now, fun e he live => ?_, fun all => idle fun e he => ?_⟩
    · obtain ⟨j, hj⟩ := List.mem_iff_getElem?.mp he
      rcases inv.owned.appending hd hj live with ⟨_, rfl⟩ | ⟨hold, _⟩
      · exact absurd hphase live
      · exact fits e (List.mem_of_getElem? hold) live
    · obtain ⟨j, hj⟩ := List.mem_iff_getElem?.mp he
      rcases eq_or_ne i j with rfl | hne
      · rw [hd] at hj
        cases hj
        exact hs
      · exact all e (List.mem_of_getElem? (by rwa [World.apply, List.getElem?_set_ne hne]))
  · obtain ⟨b', now', fits', idle'⟩ := moved_fits moved now (fits d hmem hs) hs kept
    refine ⟨b', now', fun e he live => ?_, fun all => idle' (all _ (List.mem_of_getElem? hself))⟩
    obtain ⟨j, hj⟩ := List.mem_iff_getElem?.mp he
    rcases inv.owned.appending hd hj live with ⟨_, rfl⟩ | ⟨_, hs'⟩
    · exact fits'
    · exact absurd hs' hs

/-- A driver is made when no drive of an earlier one is left, and no append that
closes a step or a turn is refused. -/
def Keeps (w : World) : Act → Prop
  | .call .create => w.current = none → ∀ d ∈ w.drives, d.phase.Gone
  | .call _ => True
  | .advance i (.raise _) => ∀ d ∈ w.drives[i]?, ¬ d.phase.Closing
  | .advance _ _ => True

theorem bracketed_reached (h : (loopSystem Closed).Reached (fun w a => w.Keeps a) w) : w.Bracketed := by
  refine System.Reached.invariant ?_ ?_ h
  · rintro _ ⟨log, success, ⟨n, hb, hn⟩, rfl⟩
    exact ⟨owned_fresh log success, .idle n, ⟨hb, hn⟩, fun d hd => absurd hd List.not_mem_nil,
      fun _ => ⟨n, rfl⟩⟩
  · intro w a w' _ inv hs keeps
    cases a with
    | call c =>
        rcases call_cases hs with ⟨rfl, hc, rfl⟩ | ⟨t, ht, rfl | ⟨i, hi, rfl⟩⟩
        · exact ⟨owned_create (keeps hc), inv.bracket⟩
        · exact inv.touched ht
        · refine (inv.touched ht).kick ?_
          rw [ht.agents_length]
          exact inv.owned.current i hi
    | advance i o =>
        obtain ⟨d, a, m, hd, ha, moved, hw⟩ := advance_cases hs
        have applied : (w.apply i d m).Bracketed := by
          refine inv.apply hd ha moved ?_
          rintro what rfl
          exact keeps d hd
        rcases hw with rfl | ⟨hp, rfl⟩
        · exact applied
        · unfold rewake
          split
          · refine applied.kick ?_
            simp only [World.apply, List.length_set]
            exact inv.owned.newest d (List.mem_of_getElem? hd) (by rw [hp]; exact id)
          · exact applied

end World

/-- One drive at most appends, and the brackets of the log are well nested. -/
theorem one_drive_nested {w : World} (h : (loopSystem Closed).Reached (fun w a => w.Keeps a) w) :
    Nested w.log ∧ ∀ (i j : Nat) (d e : Drive), w.drives[i]? = some d → w.drives[j]? = some e →
      d.Appending → e.Appending → i = j := by
  have inv := World.bracketed_reached h
  obtain ⟨b, now, _⟩ := inv.bracket
  refine ⟨?_, inv.owned.alone⟩
  rw [Nested, now.open']
  rfl

/-- The check of a step of a schedule. -/
def keeps? (w : World) : Act → Bool
  | .call .create => w.drives.all fun d => match d.phase with | .gone => true | _ => false
  | .advance _ (.raise _) => false
  | _ => true

theorem keeps_of_check {w : World} {a : Act} (h : keeps? w a = true) : w.Keeps a := by
  cases a with
  | call c =>
      cases c with
      | create =>
          intro _ d hd
          have hg := List.all_eq_true.mp h d hd
          cases hp : d.phase <;> rw [hp] at hg <;> trivial
      | _ => trivial
  | advance i o =>
      cases o with
      | raise what => cases h
      | _ => trivial

/-- A turn, and a second one after the driver was disposed and made again. -/
theorem one_drive_nested_again : ∃ w, (loopSystem Closed).Reached (fun w a => w.Keeps a) w ∧
    w.drives.length = 2 ∧ nextTurn w.log = 3 ∧ (Nested w.log ∧ ∀ (i j : Nat) (d e : Drive),
      w.drives[i]? = some d → w.drives[j]? = some e → d.Appending → e.Appending → i = j) := by
  have played : (System.follow World.next keeps? (World.fresh [] false)
      ([.call .create, .call (.followup (queued "m1") {} false)] ++ advances 0 (toStream "m1" true) ++
        advances 0 [.chunks [.blockEnd 0 (.text "done"), .finish .stop none none], .ok, .ok, .ok, .ok, .ok,
          .ok, .ok, .ok, .ok] ++
        [.call .dispose, .call .create, .call (.followup (queued "m2") {} false)] ++
        advances 1 (toStream "m2" true))).any (fun w =>
          decide (w.drives.length = 2 ∧ nextTurn w.log = 3)) = true := by decide +kernel
  obtain ⟨w, hw, hplayed⟩ := (Option.any_eq_true _ _).mp played
  obtain ⟨drives, turns⟩ := of_decide_eq_true hplayed
  have reached := System.follow_reached (S := loopSystem Closed) (P := fun w a => w.Keeps a)
    (fun _ _ _ h => h) (fun _ _ h => keeps_of_check h) hw (.start ⟨[], false, ⟨0, rfl, rfl⟩, rfl⟩)
  exact ⟨w, reached, drives, turns, one_drive_nested reached⟩

/-- A drive waits for the pre-step; its driver is disposed and made again, and the next
drive opens a turn inside the open one. -/
theorem drives_overlap : ¬ ∀ w, (loopSystem Closed).Reached (fun _ _ => True) w →
    Nested w.log ∧ ∀ (i j : Nat) (d e : Drive), w.drives[i]? = some d → w.drives[j]? = some e →
      d.Appending → e.Appending → i = j := by
  intro single
  have played : (System.follow World.next (fun _ _ => true) (World.fresh [] false)
      ([.call .create, .call (.followup (queued "m1") {} false)] ++
        advances 0 [.ok, .ok, .ok, .ok, .ok, .ok, .context []] ++
        [.call .dispose, .call .create, .call (.followup (queued "m2") {} false)] ++
        advances 1 [.ok, .ok, .ok])).any (fun w => (bracketOf w.log).isNone) = true := by decide +kernel
  obtain ⟨w, hw, hplayed⟩ := (Option.any_eq_true _ _).mp played
  have reached := System.follow_reached (S := loopSystem Closed) (P := fun _ _ => True)
    (fun _ _ _ h => h) (fun _ _ _ => trivial) hw (.start ⟨[], false, ⟨0, rfl, rfl⟩, rfl⟩)
  have nested := (single w reached).1
  rw [Nested, Option.isSome_iff_ne_none] at nested
  exact nested (Option.isNone_iff_eq_none.mp hplayed)

end Araya.Agent
