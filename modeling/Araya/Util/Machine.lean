import Mathlib.Data.List.Basic
import Mathlib.Tactic.Common

/-!
Labelled transition systems, and machines whose state carries an explicit call
stack. A frame on the stack is a pending call; executing it may push further
frames, so nested and re-entrant calls are steps of one flat relation and an
invariant may speak about the calls that are still open.
-/

namespace Araya

universe u v w

structure System (σ : Type u) (ι : Type v) where
  start : σ → Prop
  step : σ → ι → σ → Prop

/-- The states of the runs whose every step meets `ok` in the state before it. -/
inductive System.Reached {σ : Type u} {ι : Type v} (S : System σ ι)
    (ok : σ → ι → Prop) : σ → Prop
  | start {s : σ} : S.start s → S.Reached ok s
  | step {s s' : σ} {a : ι} : S.Reached ok s → S.step s a s' → ok s a → S.Reached ok s'

namespace System
variable {σ : Type u} {ι : Type v} {S : System σ ι}

/-- An invariant of the start states and of the steps of a run holds throughout it. -/
theorem Reached.invariant {ok : σ → ι → Prop} {I : σ → Prop}
    (start : ∀ s, S.start s → I s)
    (step : ∀ s a s', S.Reached ok s → I s → S.step s a s' → ok s a → I s')
    {s : σ} (h : S.Reached ok s) : I s := by
  induction h with
  | start hs => exact start _ hs
  | step hr hs hok ih => exact step _ _ _ hr ih hs hok

theorem Reached.mono {ok ok' : σ → ι → Prop} (sub : ∀ s a, ok s a → ok' s a) {s : σ}
    (h : S.Reached ok s) : S.Reached ok' s := by
  induction h with
  | start hs => exact .start hs
  | step _ hs hok ih => exact .step ih hs (sub _ _ hok)

/-- The states of the runs that go on from a state, every step meeting `ok`. -/
inductive Later (S : System σ ι) (ok : σ → ι → Prop) (s : σ) : σ → Prop
  | refl : Later S ok s s
  | step {t u : σ} {a : ι} : Later S ok s t → S.step t a u → ok t a → Later S ok s u

theorem Later.cons {ok : σ → ι → Prop} {s t u : σ} {a : ι} (l : S.Later ok t u) (h : S.step s a t)
    (hok : ok s a) : S.Later ok s u := by
  induction l with
  | refl => exact .step .refl h hok
  | step _ hs hok' ih => exact .step ih hs hok'

theorem Later.trans {ok : σ → ι → Prop} {s t u : σ} (l : S.Later ok s t) (l' : S.Later ok t u) : S.Later ok s u := by
  induction l' with
  | refl => exact l
  | step _ hs hok ih => exact .step ih hs hok

/-- What a state has and every step of a run keeps, the run keeps. -/
theorem Later.invariant {ok : σ → ι → Prop} {I : σ → Prop} (step : ∀ s a s', I s → S.step s a s' → ok s a → I s')
    {s t : σ} (h : I s) (l : S.Later ok s t) : I t := by
  induction l with
  | refl => exact h
  | step _ hs hok ih => exact step _ _ _ ih hs hok

theorem Reached.later {ok : σ → ι → Prop} {s t : σ} (h : S.Reached ok s) (l : S.Later ok s t) :
    S.Reached ok t := by
  induction l with
  | refl => exact h
  | step _ hs hok ih => exact .step ih hs hok

/-- A view of a system in which each step is a step of another one or cannot be
seen: it takes runs to runs. -/
theorem Reached.project {τ : Type*} {κ : Type*} {T : System τ κ} {ok : σ → ι → Prop}
    {ok' : τ → κ → Prop} (f : σ → τ) (start : ∀ s, S.start s → T.start (f s))
    (step : ∀ s a s', S.step s a s' → ok s a →
      f s' = f s ∨ ∃ b, T.step (f s) b (f s') ∧ ok' (f s) b)
    {s : σ} (h : S.Reached ok s) : T.Reached ok' (f s) := by
  induction h with
  | start hs => exact .start (start _ hs)
  | step _ hs hok ih =>
      rcases step _ _ _ hs hok with same | ⟨b, hb, hok'⟩
      · exact same ▸ ih
      · exact .step ih hb hok'

/-- Takes the steps of a schedule one by one, each checked beforehand. -/
def follow (next : σ → ι → Option σ) (ok : σ → ι → Bool) (s : σ) : List ι → Option σ
  | [] => some s
  | a :: as => if ok s a then (next s a).bind (follow next ok · as) else none

theorem follow_later {next : σ → ι → Option σ} {ok : σ → ι → Bool} {P : σ → ι → Prop}
    (run : ∀ s a s', next s a = some s' → S.step s a s') (sound : ∀ s a, ok s a = true → P s a)
    {s s' : σ} {as : List ι} (h : follow next ok s as = some s') : S.Later P s s' := by
  induction as generalizing s with
  | nil => simp only [follow] at h; cases h; exact .refl
  | cons a as ih =>
      simp only [follow] at h
      split at h
      · next hok =>
          obtain ⟨d, hd, h⟩ := Option.bind_eq_some_iff.mp h
          exact (ih h).cons (run _ _ _ hd) (sound _ _ hok)
      · cases h

theorem follow_reached {next : σ → ι → Option σ} {ok : σ → ι → Bool} {P : σ → ι → Prop}
    (run : ∀ s a s', next s a = some s' → S.step s a s') (sound : ∀ s a, ok s a = true → P s a)
    {s s' : σ} {as : List ι} (h : follow next ok s as = some s') (hs : S.Reached P s) :
    S.Reached P s' :=
  hs.later (follow_later run sound h)

end System

/-! Machines with a call stack -/

structure Config (σ : Type u) (φ : Type v) where
  state : σ
  stack : List φ

/-- What executing one frame does: it calls further frames, or it throws and
unwinds every frame below it. -/
inductive Outcome (σ : Type u) (φ : Type v) where
  | call (state : σ) (frames : List φ)
  | throw (state : σ)

/-- `run` executes the top frame, `op i` lets the environment act. -/
inductive Label (ι : Type w) where
  | run
  | op (i : ι)

structure StackMachine (σ : Type u) (φ : Type v) (ι : Type w) where
  start : σ → Prop
  exec : φ → σ → Outcome σ φ
  op : ι → σ → Option (σ × List φ)
  /-- Operations that may also happen inside a running call. -/
  nested : ι → Bool

namespace StackMachine
variable {σ : Type u} {φ : Type v} {ι : Type w} (m : StackMachine σ φ ι)

def next (c : Config σ φ) : Label ι → Option (Config σ φ)
  | .run =>
    match c.stack with
    | [] => none
    | f :: rest =>
      match m.exec f c.state with
      | .call s' fs => some ⟨s', fs ++ rest⟩
      | .throw s' => some ⟨s', []⟩
  | .op i =>
    if c.stack.isEmpty || m.nested i then
      match m.op i c.state with
      | none => none
      | some (s', fs) => some ⟨s', fs ++ c.stack⟩
    else none

def system : System (Config σ φ) (Label ι) where
  start c := m.start c.state ∧ c.stack = []
  step c a c' := m.next c a = some c'

variable {m}

/-- What one step does: it executes the top frame, or it is an operation. -/
theorem next_cases {c c' : Config σ φ} {a : Label ι} (h : m.next c a = some c') :
    (∃ f rest s' fs, a = .run ∧ c.stack = f :: rest ∧ m.exec f c.state = .call s' fs ∧
      c' = ⟨s', fs ++ rest⟩) ∨
    (∃ f rest s', a = .run ∧ c.stack = f :: rest ∧ m.exec f c.state = .throw s' ∧
      c' = ⟨s', []⟩) ∨
    (∃ i s' fs, a = .op i ∧ (c.stack = [] ∨ m.nested i = true) ∧ m.op i c.state = some (s', fs) ∧
      c' = ⟨s', fs ++ c.stack⟩) := by
  obtain ⟨s, stack⟩ := c
  cases a with
  | run =>
      cases stack with
      | nil => simp [next] at h
      | cons f rest =>
          simp only [next] at h
          split at h
          · next s' fs hx => exact .inl ⟨f, rest, s', fs, rfl, rfl, hx, (Option.some.inj h).symm⟩
          · next s' hx => exact .inr (.inl ⟨f, rest, s', rfl, rfl, hx, (Option.some.inj h).symm⟩)
  | op i =>
      simp only [next] at h
      split at h
      · next guard =>
          split at h
          · cases h
          · next s' fs hx =>
              refine .inr (.inr ⟨i, s', fs, rfl, ?_, hx, (Option.some.inj h).symm⟩)
              simpa using guard
      · cases h

/-- The machine's runs in which no frame throws. -/
def NoThrow (m : StackMachine σ φ ι) (c : Config σ φ) : Label ι → Prop
  | .run => ∀ f rest s', c.stack = f :: rest → m.exec f c.state ≠ .throw s'
  | .op _ => True

/-- A pending call is made before the stack falls below it. -/
theorem makes {ok : Config σ φ → Label ι → Prop} (returns : ∀ c a, ok c a → m.NoThrow c a)
    {c d : Config σ φ} {fs rest : List φ} {f : φ} (pending : c.stack = fs ++ f :: rest)
    (later : m.system.Later ok c d) (back : d.stack.length ≤ rest.length) :
    ∃ u v, m.system.Later ok c u ∧ u.stack = f :: rest ∧ m.next u .run = some v ∧ ok u .run ∧
      m.system.Later ok v d := by
  have progress : (∃ gs, d.stack = gs ++ f :: rest) ∨ ∃ u v, m.system.Later ok c u ∧ u.stack = f :: rest ∧
      m.next u .run = some v ∧ ok u .run ∧ m.system.Later ok v d := by
    clear back
    induction later with
    | refl => exact .inl ⟨fs, pending⟩
    | @step t t' a before step hok ih =>
        obtain ⟨gs, still⟩ | ⟨u, v, first, top, made, hok', after⟩ := ih
        · obtain ⟨g, below, s', calls, rfl, hst, hx, rfl⟩ | ⟨g, below, s', rfl, hst, hx, rfl⟩ |
            ⟨i, s', calls, rfl, _, _, rfl⟩ := next_cases step
          · cases gs with
            | nil => exact .inr ⟨t, _, before, still, step, hok, .refl⟩
            | cons g' gs =>
                refine .inl ⟨calls ++ gs, ?_⟩
                cases still.symm.trans hst
                exact (List.append_assoc _ _ _).symm
          · exact absurd hx (returns _ _ hok _ _ _ hst)
          · refine .inl ⟨calls ++ gs, ?_⟩
            rw [still, List.append_assoc]
        · exact .inr ⟨u, v, first, top, made, hok', after.step step hok⟩
  obtain ⟨gs, still⟩ | made := progress
  · rw [still, List.length_append, List.length_cons] at back
    omega
  · exact made

/-! Executable schedules -/

variable (m) in
/-- Executes frames until the stack is empty. -/
def drain (ok : Config σ φ → Label ι → Bool) : Nat → Config σ φ → Option (Config σ φ)
  | 0, c => if c.stack.isEmpty then some c else none
  | n + 1, c =>
    if c.stack.isEmpty then some c
    else if ok c .run then (m.next c .run).bind (drain ok n) else none

variable (m) in
/-- Plays a schedule of operations, each run to the end of its calls. -/
def play (ok : Config σ φ → Label ι → Bool) (fuel : Nat) (c : Config σ φ) :
    List ι → Option (Config σ φ)
  | [] => some c
  | i :: is =>
    if ok c (.op i) then
      ((m.next c (.op i)).bind (m.drain ok fuel)).bind (play ok fuel · is)
    else none

section
variable {ok : Config σ φ → Label ι → Bool} {P : Config σ φ → Label ι → Prop}
  (sound : ∀ c a, ok c a = true → P c a)
include sound

theorem drain_reached {fuel : Nat} {c c' : Config σ φ} (h : m.drain ok fuel c = some c')
    (hc : m.system.Reached P c) : m.system.Reached P c' := by
  induction fuel generalizing c with
  | zero =>
      simp only [drain] at h
      split at h
      · cases h; exact hc
      · cases h
  | succ n ih =>
      simp only [drain] at h
      split at h
      · cases h; exact hc
      · split at h
        · next hok =>
            obtain ⟨d, hd, h⟩ := Option.bind_eq_some_iff.mp h
            exact ih h (.step hc hd (sound _ _ hok))
        · cases h

theorem play_reached {fuel : Nat} {ops : List ι} {c c' : Config σ φ}
    (h : m.play ok fuel c ops = some c') (hc : m.system.Reached P c) :
    m.system.Reached P c' := by
  induction ops generalizing c with
  | nil => simp only [play] at h; cases h; exact hc
  | cons i is ih =>
      simp only [play] at h
      split at h
      · next hok =>
          obtain ⟨d, hd, h⟩ := Option.bind_eq_some_iff.mp h
          obtain ⟨e, he, hd⟩ := Option.bind_eq_some_iff.mp hd
          exact ih h (drain_reached sound hd (.step hc he (sound _ _ hok)))
      · cases h

end
end StackMachine
end Araya
