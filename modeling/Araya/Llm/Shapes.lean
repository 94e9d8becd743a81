import Araya.Llm.Delivered

/-!
The shapes that the chunk translator takes. A payload that is not what it should be is skipped or refused as malformed,
but for the numbers: a count that is missing or is no number raises an error of the JSON library.
-/

namespace Araya.Llm

/-- Only the translator's own errors leave it, and they say that the response is malformed. -/
def Contained {α : Type} (x : Except Thrown α) : Prop :=
  ∀ e, x = .error e → ∃ failure, e = .llm failure ∧ failure.code = .malformedResponse

/-- The library converts the number, or else throws. -/
def Converts {α : Type} (convert : Json → Except String α) (n : Json) : Prop := ∃ a, convert n = .ok a

/-- A result, if the condition holds, and an error of the library if not. -/
structure Settles {α : Type} (fits : Prop) (x : Except Thrown α) : Prop where
  ok : fits → ∃ a, x = .ok a
  error : ¬ fits → ∃ what, x = .error (.system what)

section
variable (lib : BoostJson)

/-- The index of a tool call is missing or a number. -/
def CallFits (call : Json) : Prop :=
  ∀ o ∈ call.ifObject, ∀ index ∈ Json.find? o "index", Converts lib.toInt index

def DeltaFits (delta : Json.Members) : Prop := ∀ call ∈ (Json.arrayField delta "tool_calls").getD [], CallFits lib call

def ChoiceFits (choice : Json) : Prop :=
  ∀ o ∈ choice.ifObject, ∀ delta ∈ Json.objectField o "delta", DeltaFits lib delta

/-- A count that is read from a member. -/
def CountFits (o : Json.Members) (key : String) : Prop := ∀ n ∈ Json.find? o key, Converts lib.toUint n

def cachedDetails (usage : Json.Members) : Json.Members := (Json.objectField usage "prompt_tokens_details").getD []

def completionDetails (usage : Json.Members) : Json.Members := (Json.objectField usage "completion_tokens_details").getD []

/-- Both totals are there, every count that is read is a number; the older count of cached tokens is read only without
the newer one. -/
structure UsageFits (usage : Json.Members) : Prop where
  prompt : (Json.find? usage "prompt_tokens").isSome ∧ CountFits lib usage "prompt_tokens"
  completion : (Json.find? usage "completion_tokens").isSome ∧ CountFits lib usage "completion_tokens"
  cached : CountFits lib (cachedDetails usage) "cached_tokens"
  legacy : Json.find? (cachedDetails usage) "cached_tokens" = none → CountFits lib usage "prompt_cache_hit_tokens"
  reasoning : CountFits lib (completionDetails usage) "reasoning_tokens"

/-- The counts of a payload are numbers wherever the translator reads one. -/
structure PayloadFits (o : Json.Members) : Prop where
  choices : ∀ choice ∈ (Json.arrayField o "choices").getD [], ChoiceFits lib choice
  usage : ∀ usage ∈ Json.objectField o "usage", UsageFits lib usage

end

namespace Settles
variable {α β : Type} {p q : Prop} {x : Except Thrown α} {f : α → Except Thrown β}

theorem pure (a : α) (h : p) : Settles p (.ok a : Except Thrown α) := ⟨fun _ => ⟨a, rfl⟩, fun absent => absurd h absent⟩

theorem bind (h : Settles p x) (next : ∀ a, x = .ok a → Settles q (f a)) : Settles (p ∧ q) (x >>= f) := by
  constructor
  · rintro ⟨hp, hq⟩
    obtain ⟨a, done⟩ := h.ok hp
    rw [done]
    exact (next a done).ok hq
  · intro misfit
    by_cases hp : p
    · obtain ⟨a, done⟩ := h.ok hp
      rw [done]
      exact (next a done).error fun hq => misfit ⟨hp, hq⟩
    · obtain ⟨what, thrown⟩ := h.error hp
      exact ⟨what, by rw [thrown]; rfl⟩

theorem map (h : Settles p x) (g : α → β) : Settles p (x.map g) := by
  constructor
  · intro hp
    obtain ⟨a, done⟩ := h.ok hp
    exact ⟨g a, by rw [done]; rfl⟩
  · intro misfit
    obtain ⟨what, thrown⟩ := h.error misfit
    exact ⟨what, by rw [thrown]; rfl⟩

theorem congr (h : Settles p x) (same : p ↔ q) : Settles q x := ⟨fun hq => h.ok (same.mpr hq), fun hq => h.error fun hp => hq (same.mp hp)⟩

theorem contained (h : Settles p x) : Contained x ↔ p := by
  constructor
  · intro contained
    by_contra misfit
    obtain ⟨what, thrown⟩ := h.error misfit
    obtain ⟨failure, other, -⟩ := contained _ thrown
    cases other
  · intro hp e thrown
    obtain ⟨a, done⟩ := h.ok hp
    rw [done] at thrown
    cases thrown

end Settles

section
variable {lib : BoostJson}

theorem fromLibrary_settles {α : Type} (convert : Json → Except String α) (n : Json) :
    Settles (Converts convert n) (fromLibrary (convert n)) := by
  constructor
  · rintro ⟨a, done⟩
    exact ⟨a, by rw [done]; rfl⟩
  · intro misfit
    cases converted : convert n with
    | ok a => exact absurd ⟨a, converted⟩ misfit
    | error what => exact ⟨what, rfl⟩

theorem collect_settles {α σ : Type} {f : α → σ → Except Thrown (σ × List StreamChunk)} {Fit : α → Prop}
    (step : ∀ a s, Settles (Fit a) (f a s)) (items : List α) (s : σ) : Settles (∀ a ∈ items, Fit a) (collect f items s) := by
  induction items generalizing s with
  | nil => exact .pure _ nofun
  | cons a items ih =>
      refine ((step a s).bind fun r _ => (ih r.1).map fun back => (back.1, r.2 ++ back.2)).congr ?_
      exact (List.forall_mem_cons (p := Fit)).symm

namespace ChunkTranslator

theorem countIn_settles (o : Json.Members) (key : String) : Settles (CountFits lib o key) (countIn lib o key) := by
  unfold countIn CountFits
  cases found : Json.find? o key with
  | none => exact .pure _ fun _ member => absurd member (Option.not_mem_none _)
  | some n => exact ((fromLibrary_settles lib.toUint n).map some).congr (by simp)

theorem countAt_settles (o : Json.Members) (key : String) :
    Settles ((Json.find? o key).isSome ∧ CountFits lib o key) (countAt lib o key) := by
  unfold countAt CountFits
  cases found : Json.find? o key with
  | none => exact ⟨fun fits => absurd fits.1 (by decide), fun _ => ⟨_, rfl⟩⟩
  | some n => exact (fromLibrary_settles lib.toUint n).congr (by simp)

theorem countIn_none {o : Json.Members} {key : String} {found : Option Nat} (h : countIn lib o key = .ok found) :
    found = none ↔ Json.find? o key = none := by
  unfold countIn at h
  split at h
  · next absent =>
      cases h
      simp [absent]
  · next n present =>
      cases converted : lib.toUint n <;> rw [converted] at h <;> cases h
      simp [present]

theorem mapUsage_settles (usage : Json.Members) : Settles (UsageFits lib usage) (mapUsage lib usage) := by
  have last (prompt completion : Nat) (cacheRead : Option Nat) : Settles (CountFits lib (completionDetails usage) "reasoning_tokens")
      (do
        let reasoning ← countIn lib (completionDetails usage) "reasoning_tokens"
        (.ok {
          inputTokens := cacheRead.elim prompt fun n => prompt - n
          outputTokens := completion
          totalTokens := some ((prompt + completion) % 2 ^ 64)
          cacheReadTokens := cacheRead
          reasoningTokens := reasoning } : Except Thrown TokenUsage)) :=
    ((countIn_settles _ _).bind fun reasoning _ => .pure _ trivial).congr (and_iff_left trivial)
  unfold mapUsage
  refine ((countAt_settles usage "prompt_tokens").bind (q := (_ ∧ _) ∧ _ ∧ (_ → _) ∧ _) fun prompt _ =>
    (countAt_settles usage "completion_tokens").bind fun completion _ =>
      (countIn_settles (cachedDetails usage) "cached_tokens").bind fun details read => ?_).congr
        ⟨fun ⟨prompt, completion, cached, legacy, reasoning⟩ => ⟨prompt, completion, cached, legacy, reasoning⟩,
          fun fits => ⟨fits.prompt, fits.completion, fits.cached, fits.legacy, fits.reasoning⟩⟩
  have absent := countIn_none read
  cases details with
  | none =>
      refine ((countIn_settles usage "prompt_cache_hit_tokens").bind fun cached _ => last prompt completion cached).congr ?_
      rw [imp_iff_right (absent.mp rfl)]
  | some n =>
      refine (last prompt completion (some n)).congr (and_iff_right fun none => ?_).symm
      exact absurd (absent.mpr none) (by simp)

theorem wireIndexOf_settles (o : Json.Members) :
    Settles (∀ index ∈ Json.find? o "index", Converts lib.toInt index) (wireIndexOf lib o) := by
  unfold wireIndexOf
  cases found : Json.find? o "index" with
  | none => exact .pure _ fun _ member => absurd member (Option.not_mem_none _)
  | some index =>
      refine ((fromLibrary_settles lib.toInt index).map fun n => (n % 2 ^ 64).toNat).congr ?_
      simp

theorem applyToolCall_settles (call : Json) (t : ChunkTranslator) : Settles (CallFits lib call) (applyToolCall lib call t) := by
  unfold applyToolCall CallFits
  cases call.ifObject with
  | none => exact .pure _ fun _ member => absurd member (Option.not_mem_none _)
  | some o =>
      refine ((wireIndexOf_settles o).bind fun index _ => .pure _ trivial).congr ?_
      simp

theorem applyDelta_settles (delta : Json.Members) (t : ChunkTranslator) : Settles (DeltaFits lib delta) (t.applyDelta lib delta) := by
  unfold applyDelta
  exact ((collect_settles applyToolCall_settles _ _).bind fun r _ => .pure _ trivial).congr (and_iff_left trivial)

theorem applyChoice_settles (choice : Json) (t : ChunkTranslator) : Settles (ChoiceFits lib choice) (applyChoice lib choice t) := by
  unfold applyChoice ChoiceFits
  cases choice.ifObject with
  | none => exact .pure _ fun _ member => absurd member (Option.not_mem_none _)
  | some o =>
      simp only [Option.mem_def, Option.some.injEq, forall_eq']
      cases Json.objectField o "delta" with
      | none => exact .pure _ fun _ member => absurd member (Option.not_mem_none _)
      | some delta =>
          refine ((applyDelta_settles delta t).bind fun r _ => .pure _ trivial).congr ?_
          simp

theorem feed_settles {o : Json.Members} {t : ChunkTranslator} (running : t.done = false) :
    Settles (PayloadFits lib o) (feed lib (.obj o) t) := by
  unfold feed
  rw [running, if_neg Bool.false_ne_true]
  refine ((collect_settles applyChoice_settles _ t).bind
    (q := ∀ usage ∈ Json.objectField o "usage", UsageFits lib usage) fun r _ => ?_).congr ?_
  · cases Json.objectField o "usage" with
    | none => exact .pure _ fun _ member => absurd member (Option.not_mem_none _)
    | some usage =>
        refine ((mapUsage_settles usage).bind fun counts _ => .pure _ trivial).congr ?_
        simp
  · constructor
    · rintro ⟨choices, usage⟩
      exact ⟨choices, usage⟩
    · intro fits
      exact ⟨fits.choices, fits.usage⟩

end ChunkTranslator
end

/-- Whatever a payload is, the translator takes or refuses it, unless a count in it is missing or is no number. -/
theorem feed_contained (lib : BoostJson) (t : ChunkTranslator) (wire : Json) :
    Contained (t.feed lib wire) ↔ (t.done = false → ∀ o ∈ wire.ifObject, PayloadFits lib o) := by
  cases running : t.done with
  | true =>
      refine iff_of_true (fun e thrown => ?_) nofun
      unfold ChunkTranslator.feed at thrown
      rw [running, if_pos rfl] at thrown
      cases thrown
      exact ⟨_, rfl, rfl⟩
  | false =>
      rw [imp_iff_right rfl]
      cases object : wire.ifObject with
      | none =>
          refine iff_of_true (fun e thrown => ?_) nofun
          unfold ChunkTranslator.feed at thrown
          rw [running, if_neg Bool.false_ne_true, object] at thrown
          cases thrown
          exact ⟨_, rfl, rfl⟩
      | some o =>
          obtain rfl : wire = .obj o := by
            cases wire <;> cases object
            rfl
          exact (ChunkTranslator.feed_settles running).contained.trans (by simp)

/-- A usage without its totals leaves as an error of the library. -/
theorem feed_escapes : ¬ ∀ (lib : BoostJson) (t : ChunkTranslator) (wire : Json), Contained (t.feed lib wire) := by
  intro contained
  obtain ⟨failure, escaped, -⟩ := contained emptyObjects {} (.obj [("usage", .obj [])]) (.system emptyObjects.noMember) rfl
  cases escaped

end Araya.Llm
