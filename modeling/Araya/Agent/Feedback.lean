import Araya.Agent.Moves

/-!
A turn that finishes `completed` finishes on a step that said so. The flag that a
terminal step leaves is not taken back when messages keep the turn open, so a
later step that only executed its tools can close the turn on it.
-/

namespace Araya.Agent

/-- The last step that a turn executed, if any, returned a terminal outcome. -/
def Concluded (exits : List (Option RunStatus)) : Prop := ∀ exit, exits.getLast? = some exit → exit.isSome = true

/-- The results of a completed turn went back to the model. -/
def TurnReport.Fed (r : TurnReport) : Prop := r.status = .completed → Concluded r.exits

namespace TurnState

/-- An earlier step ended the turn, and the last one only executed its tools. -/
def Stale (t : TurnState) : Prop := t.ended = some .completed ∧ t.exits.getLast? = some none

instance (t : TurnState) : Decidable t.Stale := inferInstanceAs (Decidable (_ ∧ _))

/-- No step was executed before the first one. -/
def Opened (t : TurnState) : Prop := t.firstStep = true → t.exits = []

def Ended (t : TurnState) : Prop := t.ended.isSome = true

def Closable (t : TurnState) : Prop := t.Ended ∧ (t.ended = some .completed → Concluded t.exits)

theorem closable_of_not_stale {t : TurnState} (ended : t.Ended) (h : ¬ t.Stale) : t.Closable := by
  refine ⟨ended, fun he exit hlast => ?_⟩
  cases exit with
  | none => exact absurd ⟨he, hlast⟩ h
  | some s => rfl

theorem closable_of_opened {t : TurnState} (h : t.Opened) (first : t.firstStep = true)
    (status : RunStatus) : ({ t with ended := some status } : TurnState).Closable :=
  ⟨rfl, fun _ exit hlast => by simp [h first] at hlast⟩

theorem closable_of_status {t : TurnState} {status : RunStatus} (h : status ≠ .completed) :
    ({ t with ended := some status } : TurnState).Closable :=
  ⟨rfl, fun he => absurd (Option.some.inj he) h⟩

end TurnState

namespace Phase

def Sound : Phase → Prop
  | .posted | .top | .opening | .unwinding _ _ | .failing _ _ | .closed | .finished _ | .resuming
  | .gone => True
  | .looping t | .claimingStep t | .claimingTurn t _ | .proposing t _ | .deciding t _ | .decided t _ _
  | .starting t _ | .prompting t _ | .admitting t _ | .requesting t | .streaming t | .retrying t _
  | .committing t _ | .calling t _ _ | .called t _ _ _ | .invoking t _ _ _ | .answering t _ _ _ _
  | .stepped t _ | .checking t => t.Opened
  | .stopping t | .rechecking t => t.Opened ∧ t.Ended
  | .closing t => t.Closable

/-- After a step that only executed its tools, in a turn that an earlier step had
ended, a message is still pending when the loop looks again, and the next step gets
one. -/
def Feeds (log : Log) : Phase → Prop
  | .rechecking t => t.Stale → (inboxOf log).nextStep ≠ []
  | .decided t false messages => t.Stale → messages ≠ []
  | _ => True

instance (log : Log) : (p : Phase) → Decidable (p.Feeds log)
  | .rechecking t => inferInstanceAs (Decidable (t.Stale → _))
  | .decided t false _ => inferInstanceAs (Decidable (t.Stale → _))
  | .decided _ true _ => .isTrue trivial
  | .posted | .top | .opening | .unwinding _ _ | .failing _ _ | .closed | .finished _ | .resuming
  | .gone | .looping _ | .claimingStep _ | .claimingTurn _ _ | .proposing _ _ | .deciding _ _
  | .starting _ _ | .prompting _ _ | .admitting _ _ | .requesting _ | .streaming _ | .retrying _ _
  | .committing _ _ | .calling _ _ _ | .called _ _ _ _ | .invoking _ _ _ _ | .answering _ _ _ _ _
  | .stepped _ _ | .checking _ | .stopping _ | .closing _ => .isTrue trivial

end Phase

/-- What an advance leaves is sound, and what it reports is fed. -/
theorem moved_sound {success : Bool} {log : Log} {a : AgentState} {p : Phase} {o : Outcome} {m : Move}
    (h : Moved success log a p o m) (sound : p.Sound) (feeds : p.Feeds log) :
    m.phase.Sound ∧ ∀ r ∈ m.report, r.Fed := by
  cases h with
  | aborts t _ | blocks t _ | blocked t _ => exact ⟨TurnState.closable_of_status (by simp), by simp⟩
  | emptied t ended => exact ⟨t.closable_of_not_stale ended fun hs => feeds hs rfl, by simp⟩
  | emptiedFirst t first => exact ⟨t.closable_of_opened sound first _, by simp⟩
  | settles t empty => exact ⟨t.closable_of_not_stale sound.2 fun hs => feeds hs empty, by simp⟩
  | closes t =>
      refine ⟨trivial, fun r hr => ?_⟩
      cases hr
      obtain ⟨status, hs⟩ := Option.isSome_iff_exists.mp sound.1
      intro hc
      exact sound.2 (by simpa [hs] using hc)
  | fails t what =>
      refine ⟨trivial, fun r hr => ?_⟩
      cases hr
      exact fun hc => by cases hc
  | claimsStep t m hm =>
      refine ⟨?_, by simp⟩
      simp only
      split <;> exact sound
  | steps t exit => exact ⟨fun hf => by simp [TurnState.stepped] at hf, by simp⟩
  | stops t ended => exact ⟨⟨sound, ended⟩, by simp⟩
  | rechecks t => exact ⟨sound, by simp⟩
  | reopens t => exact ⟨sound.1, by simp⟩
  | opens => exact ⟨fun _ => rfl, by simp⟩
  | raisesStep _ _ _ _ | raisesTurn _ _ _ _ => exact ⟨trivial, by simp⟩
  | _ => exact ⟨by trivial, by simp⟩

namespace World

/-- The drive that advances is not left on a stale flag. -/
def Feeds (w : World) : Act → Prop
  | .call _ => True
  | .advance i _ => ∀ d ∈ w.drives[i]?, d.phase.Feeds w.log

instance (w : World) : (a : Act) → Decidable (w.Feeds a)
  | .call _ => .isTrue trivial
  | .advance i _ => inferInstanceAs (Decidable (∀ d ∈ w.drives[i]?, d.phase.Feeds w.log))

/-- The drives are sound and the turns they closed are fed. -/
structure Nourished (w : World) : Prop where
  drives : ∀ d ∈ w.drives, d.phase.Sound
  reports : ∀ r ∈ w.reports, r.Fed

theorem Grown.nourished {w w' : World} (h : w.Grown w') (inv : w.Nourished) : w'.Nourished := by
  obtain ⟨new, hd, hn⟩ := h.drives
  refine ⟨fun d hmem => ?_, fun r hr => inv.reports r (h.reports ▸ hr)⟩
  rw [hd] at hmem
  rcases List.mem_append.mp hmem with hold | hnew
  · exact inv.drives d hold
  · rw [hn d hnew]
    trivial

theorem apply_nourished {w : World} {i : Nat} {d : Drive} {m : Move} (inv : w.Nourished)
    (sound : m.phase.Sound ∧ ∀ r ∈ m.report, r.Fed) : (w.apply i d m).Nourished := by
  refine ⟨fun e he => ?_, fun r hr => ?_⟩
  · rcases List.mem_or_eq_of_mem_set he with hold | rfl
    · exact inv.drives e hold
    · exact sound.1
  · rcases List.mem_append.mp hr with hold | hnew
    · exact inv.reports r hold
    · exact sound.2 r (Option.mem_toList.mp hnew)

theorem nourished_reached {ready : Log → Prop} {w : World}
    (h : (loopSystem ready).Reached (fun w a => w.Feeds a) w) : w.Nourished := by
  refine System.Reached.invariant ?_ ?_ h
  · rintro _ ⟨log, success, _, rfl⟩
    exact ⟨fun d hd => absurd hd List.not_mem_nil, fun r hr => absurd hr List.not_mem_nil⟩
  · intro w a w' _ inv hs feeds
    cases a with
    | call c => exact (Grown.call hs).nourished inv
    | advance i o =>
        obtain ⟨d, a, m, hd, _, moved, grown⟩ := advance_grown hs
        exact grown.nourished (apply_nourished inv
          (moved_sound moved (inv.drives d (List.mem_of_getElem? hd)) (feeds d hd)))

end World

/-- Tool results are fed back: a turn that completes does so on a terminal step. -/
theorem completed_fed {ready : Log → Prop} {w : World}
    (h : (loopSystem ready).Reached (fun w a => w.Feeds a) w) :
    ∀ r ∈ w.reports, r.status = .completed → ∀ exit, r.exits.getLast? = some exit → exit.isSome = true :=
  fun r hr => (World.nourished_reached h).reports r hr

/-- A plain answer, while a message arrives, and then a step that calls a tool. -/
def staleTurn : List Act :=
  [.call .create, .call (.followup (queued "m1") {} false)] ++ advances 0 (toStream "m1" true) ++
    [.call (.inject (queued "m2") false)] ++
    advances 0 [.chunks [.blockEnd 0 (.text "done"), .finish .stop none none], .ok, .ok, .ok, .ok, .ok] ++
    advances 0 (admitBatch "m2") ++
    advances 0 [.chunks [.blockEnd 0 (.toolCall ⟨"c1", "read", "{}"⟩), .finish .toolCalls none none], .ok,
      .ok, .ok, .result { content := .null }, .ok, .ok, .ok, .ok, .ok, .ok, .ok]

theorem completed_fed_once : (∃ w, (loopSystem fun _ => True).Reached (fun w a => w.Feeds a) w ∧
    w.reports.length = 1 ∧ ∀ r ∈ w.reports, r.status = .completed →
      ∀ exit, r.exits.getLast? = some exit → exit.isSome = true) := by
  have played : (System.follow World.next (fun w a => decide (w.Feeds a)) (World.fresh [] false)
      ([.call .create, .call (.followup (queued "m1") {} false)] ++ advances 0 (toStream "m1" true) ++
        advances 0 [.chunks [.blockEnd 0 (.text "done"), .finish .stop none none], .ok, .ok, .ok, .ok, .ok,
          .ok])).any (fun w => decide (w.reports.length = 1)) = true := by decide +kernel
  obtain ⟨w, hw, hplayed⟩ := (Option.any_eq_true _ _).mp played
  have reached := System.follow_reached (S := loopSystem fun _ => True) (P := fun w a => w.Feeds a)
    (fun _ _ _ h => h) (fun _ _ h => of_decide_eq_true h) hw (.start ⟨[], false, trivial, rfl⟩)
  exact ⟨w, reached, of_decide_eq_true hplayed, completed_fed reached⟩

/-- The tool's result is in the log, no later step sent it, and the turn is `completed`. -/
theorem completed_stale : ¬ ∀ w, (loopSystem fun _ => True).Reached (fun _ _ => True) w →
    ∀ r ∈ w.reports, r.status = .completed →
      ∀ exit, r.exits.getLast? = some exit → exit.isSome = true := by
  intro fed
  have played : (System.follow World.next (fun _ _ => true) (World.fresh [] false) staleTurn).any (fun w =>
      w.reports.any fun r => decide (r.status = .completed ∧ r.exits.getLast? = some none)) = true := by
    decide +kernel
  obtain ⟨w, hw, hplayed⟩ := (Option.any_eq_true _ _).mp played
  have reached := System.follow_reached (S := loopSystem fun _ => True) (P := fun _ _ => True)
    (fun _ _ _ h => h) (fun _ _ _ => trivial) hw (.start ⟨[], false, trivial, rfl⟩)
  obtain ⟨r, hr, hstale⟩ := List.any_eq_true.mp hplayed
  obtain ⟨status, last⟩ := of_decide_eq_true hstale
  exact absurd (fed w reached r hr status none last) (by simp)

end Araya.Agent
