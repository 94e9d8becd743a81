import Araya.Agent.Moves

/-!
Who may append. A drive that has left its loop for good is settled; the drives
that have not belong to the newest driver, which is running, and there is one of
them at most as long as no driver is made beside an unfinished drive.
-/

namespace Araya.Agent

namespace Phase

/-- The drive appends no more. -/
def Settled : Phase → Prop
  | .resuming | .gone => True
  | _ => False

def Gone : Phase → Prop
  | .gone => True
  | _ => False

theorem Gone.settled {p : Phase} (h : p.Gone) : p.Settled := by
  cases p <;> first | exact h.elim | trivial

end Phase

/-- The drive may append again. -/
def Drive.Appending (d : Drive) : Prop := ¬ d.phase.Settled

section
variable {success : Bool} {log : Log} {a : AgentState} {p : Phase} {o : Outcome} {m : Move}

theorem moved_not_gone (h : Moved success log a p o m) : ¬ p.Gone := by
  rintro hg
  cases p <;> first | exact hg | cases h <;> contradiction

/-- A drive that is settled stays so and leaves its driver as it was. -/
theorem moved_settled (h : Moved success log a p o m) (hp : p.Settled) :
    m.phase.Settled ∧ m.events = [] ∧ m.agent.running = a.running := by
  cases p with
  | resuming => cases h <;> first | exact ⟨trivial, rfl, rfl⟩ | contradiction
  | gone => exact absurd trivial (moved_not_gone h)
  | _ => exact hp.elim

/-- Only a drive that finishes leaves its driver idle. -/
theorem moved_running (h : Moved success log a p o m) (hm : ¬ m.phase.Settled) :
    m.agent.running = a.running := by
  cases h with
  | finishes _ _ | resumes => exact absurd trivial hm
  | ends t acc status a' _ ha => rw [ha]; split <;> rfl
  | _ => rfl

end

namespace World

/-- The drives of the newest driver are all there is, and one of them at most appends. -/
structure Owned (w : World) : Prop where
  newest : ∀ d ∈ w.drives, ¬ d.phase.Gone → d.agent + 1 = w.agents.length
  current : ∀ i, w.current = some i → i + 1 = w.agents.length
  busy : ∀ d ∈ w.drives, d.Appending → ∀ a ∈ w.agents[d.agent]?, a.running = true
  alone : ∀ (i j : Nat) (d e : Drive), w.drives[i]? = some d → w.drives[j]? = some e → d.Appending →
    e.Appending → i = j

variable {w w' : World} {i : Nat}

theorem owned_fresh (log : Log) (success : Bool) : (fresh log success).Owned :=
  ⟨fun _ hd => absurd hd List.not_mem_nil, fun _ hi => (nomatch hi),
    fun _ hd => absurd hd List.not_mem_nil, fun _ _ _ _ hi => (nomatch hi)⟩

theorem Touched.agents_length (h : w.Touched w') : w'.agents.length = w.agents.length := by
  have same : w'.agents.map AgentState.running = w.agents.map AgentState.running :=
    List.ext_getElem? fun j => by simpa using h.running j
  simpa using congrArg List.length same

theorem Owned.touched (inv : w.Owned) (h : w.Touched w') : w'.Owned := by
  have length := h.agents_length
  refine ⟨?_, ?_, ?_, ?_⟩
  · rw [h.drives, length]
    exact inv.newest
  · rw [length]
    exact fun i hi => inv.current i (h.current i hi)
  · rw [h.drives]
    intro d hd live a ha
    have same := h.running d.agent
    rw [Option.mem_def.mp ha, Option.map_some] at same
    obtain ⟨a', ha', hr⟩ := Option.map_eq_some_iff.mp same.symm
    exact hr.symm.trans (inv.busy d hd live a' ha')
  · rw [h.drives]
    exact inv.alone

/-- Nothing is left to append once the newest driver is idle. -/
theorem Owned.settled (inv : w.Owned) {a : AgentState} (hi : i + 1 = w.agents.length)
    (ha : w.agents[i]? = some a) (hr : a.running = false) : ∀ d ∈ w.drives, d.phase.Settled := by
  intro d hd
  by_contra live
  have new := inv.newest d hd fun hg => live hg.settled
  have same : d.agent = i := by omega
  have running := inv.busy d hd live a (by rw [same]; exact ha)
  rw [hr] at running
  cases running

theorem Owned.kick (inv : w.Owned) (hi : i + 1 = w.agents.length) : (w.kick i).Owned := by
  rcases w.kick_cases i with hk | ⟨a, ha, hr, hk⟩
  · rw [hk]
    exact inv
  · rw [hk]
    have settled := inv.settled hi ha hr
    have last : ∀ d ∈ w.drives ++ [({ agent := i } : Drive)], d.Appending → d = { agent := i } := by
      intro d hd live
      rcases List.mem_append.mp hd with hold | hnew
      · exact absurd (settled d hold) live
      · exact List.mem_singleton.mp hnew
    have index : ∀ (j : Nat) (d : Drive), (w.drives ++ [({ agent := i } : Drive)])[j]? = some d →
        d.Appending → j = w.drives.length := by
      intro j d hj live
      by_cases hlt : j < w.drives.length
      · rw [List.getElem?_append_left hlt] at hj
        exact absurd (settled d (List.mem_of_getElem? hj)) live
      · have hle := (List.getElem?_eq_some_iff.mp hj).1
        simp only [List.length_append, List.length_singleton] at hle
        omega
    refine ⟨?_, ?_, ?_, ?_⟩
    · simp only [List.length_modify]
      intro d hd hg
      rcases List.mem_append.mp hd with hold | hnew
      · exact inv.newest d hold hg
      · rw [List.mem_singleton.mp hnew]
        exact hi
    · simpa only [List.length_modify] using inv.current
    · intro d hd live a' ha'
      rw [last d hd live] at ha'
      simp only [List.getElem?_modify, if_true, ha, Option.mem_def] at ha'
      cases ha'
      rfl
    · intro j k d e hj hk' hd he
      rw [index j d hj hd, index k e hk' he]

theorem owned_create (gone : ∀ d ∈ w.drives, d.phase.Gone) :
    ({ w with agents := w.agents ++ [{}], current := some w.agents.length } : World).Owned := by
  refine ⟨fun d hd hg => absurd (gone d hd) hg, ?_, fun d hd live => absurd (gone d hd).settled live,
    fun i j d e hi _ hd _ => absurd (gone d (List.mem_of_getElem? hi)).settled hd⟩
  intro i hi
  cases hi
  simp

section
variable {d : Drive} {a : AgentState} {o : Outcome} {m : Move}

/-- After a move the drive that appends is the one that moved, or that one had settled. -/
theorem Owned.appending (inv : w.Owned) (hd : w.drives[i]? = some d) {j : Nat} {e : Drive}
    (hj : (w.apply i d m).drives[j]? = some e) (live : e.Appending) :
    (j = i ∧ e = { d with phase := m.phase }) ∨ (w.drives[j]? = some e ∧ d.phase.Settled) := by
  have hlt := (List.getElem?_eq_some_iff.mp hd).1
  rcases eq_or_ne i j with rfl | hne
  · rw [World.apply, List.getElem?_set_self hlt] at hj
    exact .inl ⟨rfl, (Option.some.inj hj).symm⟩
  · rw [World.apply, List.getElem?_set_ne hne] at hj
    by_cases hs : d.phase.Settled
    · exact .inr ⟨hj, hs⟩
    · exact absurd (inv.alone i j d e hd hj hs live) hne

theorem Owned.apply (inv : w.Owned) (hd : w.drives[i]? = some d) (ha : w.agents[d.agent]? = some a)
    (moved : Moved w.maxTokensAsSuccess w.log a d.phase o m) : (w.apply i d m).Owned := by
  have hmem := List.mem_of_getElem? hd
  have hagent := (List.getElem?_eq_some_iff.mp ha).1
  refine ⟨?_, ?_, ?_, ?_⟩
  · intro e he hg
    simp only [World.apply, List.length_set]
    rcases List.mem_or_eq_of_mem_set he with hold | rfl
    · exact inv.newest e hold hg
    · exact inv.newest d hmem (moved_not_gone moved)
  · simp only [World.apply, List.length_set]
    exact inv.current
  · intro e he live x hx
    obtain ⟨j, hj⟩ := List.mem_iff_getElem?.mp he
    rcases inv.appending hd hj live with ⟨_, rfl⟩ | ⟨hold, hs⟩
    · simp only [World.apply, List.getElem?_set_self hagent, Option.mem_def, Option.some.injEq] at hx
      have before : d.Appending := fun hs => live (moved_settled moved hs).1
      rw [← hx, moved_running moved live]
      exact inv.busy d hmem before a ha
    · rcases eq_or_ne d.agent e.agent with heq | hne
      · simp only [World.apply, ← heq, List.getElem?_set_self hagent, Option.mem_def,
          Option.some.injEq] at hx
        rw [← hx, (moved_settled moved hs).2.2]
        exact inv.busy e (List.mem_of_getElem? hold) live a (by rw [← heq]; exact ha)
      · simp only [World.apply, List.getElem?_set_ne hne] at hx
        exact inv.busy e (List.mem_of_getElem? hold) live x hx
  · intro j k e f hj hk he hf
    rcases inv.appending hd hj he with ⟨rfl, rfl⟩ | ⟨hold, hs⟩
    · rcases inv.appending hd hk hf with ⟨rfl, _⟩ | ⟨_, hs'⟩
      · rfl
      · exact absurd (moved_settled moved hs').1 he
    · rcases inv.appending hd hk hf with ⟨rfl, rfl⟩ | ⟨hold', _⟩
      · exact absurd (moved_settled moved hs).1 hf
      · exact inv.alone j k e f hold hold' he hf

end

/-- A driver is made when no drive of an earlier one is left. -/
def MakesAlone (w : World) : Act → Prop
  | .call .create => w.current = none → ∀ d ∈ w.drives, d.phase.Gone
  | _ => True

theorem Owned.rewake (inv : w.Owned) (hi : i + 1 = w.agents.length) (a : AgentState) :
    (w.rewake i a).Owned := by
  unfold World.rewake
  split
  · exact inv.kick hi
  · exact inv

theorem Owned.call (inv : w.Owned) {c : Call} (h : w.call c = some w') (alone : w.MakesAlone (.call c)) :
    w'.Owned := by
  rcases call_cases h with ⟨rfl, hc, rfl⟩ | ⟨t, ht, rfl | ⟨i, hi, rfl⟩⟩
  · exact owned_create (alone hc)
  · exact inv.touched ht
  · refine (inv.touched ht).kick ?_
    rw [ht.agents_length]
    exact inv.current i hi

theorem Owned.advance (inv : w.Owned) {o : Outcome} (h : w.advance i o = some w') : w'.Owned := by
  obtain ⟨d, a, m, hd, ha, moved, hw⟩ := advance_cases h
  have applied := inv.apply hd ha moved
  rcases hw with rfl | ⟨hp, rfl⟩
  · exact applied
  · refine applied.rewake ?_ a
    simp only [World.apply, List.length_set]
    exact inv.newest d (List.mem_of_getElem? hd) (by rw [hp]; exact id)

end World
end Araya.Agent
