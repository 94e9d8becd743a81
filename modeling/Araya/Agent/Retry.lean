import Araya.Agent.Loop
import Mathlib.Data.Nat.Find

/-!
The requests of a step under the retry plugin. A failure with nothing committed is put to the listeners of the request errors;
the plugin decides from the policy of the provider whether the same request is streamed again, and after what delay.
-/

namespace Araya.Agent
open Llm (LlmErrorCode LlmFailure StreamChunk StepAccumulator codeName)

inductive RetryMode where
  | normal
  | always
  deriving DecidableEq

/-- `jitter` is whether the jitter ratio is positive. Delays are in milliseconds. -/
structure RetryPolicy where
  mode : RetryMode := .normal
  maxRetries : UInt32 := 5
  retryableCodes : List String := []
  initialDelay : Int := 500
  maxDelay : Int := 10000
  jitter : Bool := true

def defaultRetryable : List String := ["empty_response", "rate_limit", "server", "timeout", "transport"]

def eligible (code : LlmErrorCode) (codes : List String) : Bool :=
  if codes.isEmpty then defaultRetryable.contains (codeName code) else codes.contains (codeName code)

/-- The doubling loop of `backoff_delay`. -/
def doubled (maxDelay : Int) : Nat → Int → Int
  | 0, delay => delay
  | attempt + 1, delay => if delay < maxDelay then doubled maxDelay attempt (min (delay * 2) maxDelay) else delay

/-- `jittered` is what the jitter makes of a delay. -/
def backoffDelay (policy : RetryPolicy) (attempt : UInt32) (jittered : Int → Int) : Int :=
  let delay := doubled policy.maxDelay attempt.toNat policy.initialDelay
  let delay := if policy.jitter then jittered delay else delay
  min (max delay 1) policy.maxDelay

structure RequestErrorMsg where
  attempt : UInt32
  failure : LlmFailure
  providerRetryAfter : Option Int := none
  stop : Bool := false
  retry : Bool := false
  delay : Int := 0

/-- `decide`: the delay of a retry, or nothing to delegate. -/
def decideRetry (message : RequestErrorMsg) (policy : RetryPolicy) (jittered : Int → Int) : Option Int :=
  if message.stop then none
  else if policy.mode = .normal ∧
      (policy.maxRetries ≤ message.attempt ∨ ¬ eligible message.failure.code policy.retryableCodes) then none
  else
    match message.providerRetryAfter with
    | some after =>
      if 0 < after ∧ after ≤ policy.maxDelay then some after
      else some (backoffDelay policy message.attempt jittered)
    | none => some (backoffDelay policy message.attempt jittered)

/-- What one attempt meets: what its stream delivers, the delay that the failure asks for, whether a stop is requested when the
stream has ended and when the wait is over, and its jitter. -/
structure Attempt where
  chunks : List StreamChunk
  retryAfter : Option Int := none
  stop : Bool := false
  stopWaiting : Bool := false
  jittered : Int → Int := id

abbrev RequestErrorListener := RequestErrorMsg → (RequestErrorMsg → RequestErrorMsg) → RequestErrorMsg

/-- The listener of the plugin. -/
def retryListener (policy : RetryPolicy) (e : Attempt) : RequestErrorListener := fun message next =>
  match decideRetry message policy e.jittered with
  | none => next message
  | some delay => if e.stopWaiting then next message else { message with retry := true, delay }

def waterfall : List RequestErrorListener → RequestErrorMsg → RequestErrorMsg
  | [], message => message
  | listener :: listeners, message => listener message (waterfall listeners)

section
variable (policy : RetryPolicy) (env : Nat → Attempt) (maxTokensAsSuccess : Bool) (log : Log) (a : AgentState) (t : TurnState)

/-- One turn of the loop: the stream, and what the listeners make of its failure. -/
def attemptOnce (e : Attempt) (attempt : UInt32) : Option (Phase × Option Int) := do
  let streamed ← moveRequest maxTokensAsSuccess log { a with stop := e.stop } (.streaming t) (.chunks e.chunks)
  match streamed.phase with
  | .retrying t acc => do
    let failure ← acc.failure
    let resolved := waterfall [retryListener policy e]
      { attempt, failure, providerRetryAfter := e.retryAfter, stop := e.stop }
    let decided ← moveRequest maxTokensAsSuccess log { a with stop := e.stop } (.retrying t acc) (.retry resolved.retry)
    return (decided.phase, if resolved.retry then some resolved.delay else none)
  | phase => return (phase, none)

/-- The loop of `run_step`: the phase in which it ends and the delays before its retries. -/
def requests : Nat → Nat → UInt32 → Option (Phase × List Int)
  | 0, _, _ => none
  | fuel + 1, k, attempt => do
    match ← attemptOnce policy maxTokensAsSuccess log a t (env k) attempt with
    | (phase, none) => return (phase, [])
    | (_, some delay) =>
      let (phase, delays) ← requests fuel (k + 1) (attempt + 1)
      return (phase, delay :: delays)

end

/-! When it retries -/

/-- No stop is requested until the wait is over, and in the normal mode there are retries left and the code is eligible. -/
def Allows (policy : RetryPolicy) (e : Attempt) (attempt : UInt32) (failure : LlmFailure) : Prop :=
  e.stop = false ∧ e.stopWaiting = false ∧
    (policy.mode = .normal → attempt < policy.maxRetries ∧ eligible failure.code policy.retryableCodes = true)

/-- The attempt ends in a failure after which the plugin allows another one. -/
def Again (policy : RetryPolicy) (e : Attempt) (attempt : UInt32) : Prop :=
  ∃ failure, (StepAccumulator.accumulate e.chunks).why = .error ∧
    (StepAccumulator.accumulate e.chunks).failure = some failure ∧ Allows policy e attempt failure

/-- The delay before the next attempt: the provider's own where it is positive and within the bound. -/
def delayOf (policy : RetryPolicy) (e : Attempt) (attempt : UInt32) : Int :=
  match e.retryAfter with
  | some after => if 0 < after ∧ after ≤ policy.maxDelay then after else backoffDelay policy attempt e.jittered
  | none => backoffDelay policy attempt e.jittered

section
variable {policy : RetryPolicy} {env : Nat → Attempt} {maxTokensAsSuccess : Bool} {log : Log} {a : AgentState} {t : TurnState}
  {e : Attempt} {attempt : UInt32} {message : RequestErrorMsg}

/-- The doubling is capped by the bound, which the end of `backoff_delay` takes care of. -/
theorem doubled_capped (maxDelay : Int) (attempt : Nat) (delay : Int) :
    min (max (doubled maxDelay attempt delay) 1) maxDelay = min (max (delay * 2 ^ attempt) 1) maxDelay := by
  have grows (x : Int) (n : Nat) (positive : 0 ≤ x) : x ≤ x * 2 ^ n :=
    le_mul_of_one_le_right positive (one_le_pow₀ (by decide))
  have reaches {x : Int} (h : maxDelay ≤ max x 1) : min (max x 1) maxDelay = maxDelay := min_eq_right h
  induction attempt generalizing delay with
  | zero => simp [doubled]
  | succ attempt ih =>
      rw [doubled]
      split
      · next below =>
          rw [ih]
          obtain under | beyond := le_total (delay * 2) maxDelay
          · rw [min_eq_left under, pow_succ, mul_comm (2 ^ attempt) 2, mul_assoc]
          · have half : 0 ≤ maxDelay := by omega
            rw [min_eq_right beyond, reaches (le_max_of_le_left (grows maxDelay attempt half)), reaches]
            refine le_max_of_le_left (beyond.trans ?_)
            rw [pow_succ, mul_comm (2 ^ attempt) 2, ← mul_assoc]
            exact grows (delay * 2) attempt (by omega)
      · next above =>
          rw [reaches (le_max_of_le_left (by omega)), reaches]
          obtain low | high := le_total maxDelay 1
          · exact le_max_of_le_right low
          · exact le_max_of_le_left (le_trans (by omega) (grows delay (attempt + 1) (by omega)))

/-- The delay of a retry without jitter. -/
theorem backoffDelay_plain (plain : policy.jitter = false) (jittered : Int → Int) :
    backoffDelay policy attempt jittered = min (max (policy.initialDelay * 2 ^ attempt.toNat) 1) policy.maxDelay := by
  rw [backoffDelay, plain]
  exact doubled_capped _ _ _

theorem delayOf_bounds (positive : 1 ≤ policy.maxDelay) :
    1 ≤ delayOf policy e attempt ∧ delayOf policy e attempt ≤ policy.maxDelay := by
  have backoff : 1 ≤ backoffDelay policy attempt e.jittered ∧ backoffDelay policy attempt e.jittered ≤ policy.maxDelay :=
    ⟨le_min (le_max_right _ _) positive, min_le_right _ _⟩
  unfold delayOf
  split
  · next after _ =>
      split
      · next honoured => exact ⟨honoured.1, honoured.2⟩
      · exact backoff
  · exact backoff

theorem decideRetry_eq (message : RequestErrorMsg) (e : Attempt) (same : message.providerRetryAfter = e.retryAfter)
    (attempts : message.attempt = attempt) : decideRetry message policy e.jittered =
      if message.stop = false ∧ (policy.mode = .normal → attempt < policy.maxRetries ∧
        eligible message.failure.code policy.retryableCodes = true) then some (delayOf policy e attempt) else none := by
  subst attempts
  unfold decideRetry delayOf
  rw [same]
  cases message.stop with
  | true => simp
  | false =>
      by_cases normal : policy.mode = .normal
      · by_cases left : message.attempt < policy.maxRetries
        · by_cases may : eligible message.failure.code policy.retryableCodes = true
          · rw [if_neg (by simp), if_neg (by simp [may, UInt32.not_le.mpr left]), if_pos (by simp [left, may])]
            cases e.retryAfter with
            | none => rfl
            | some after => exact (apply_ite some _ _ _).symm
          · simp [normal, may]
        · simp [normal, left, UInt32.not_lt.mp left]
      · rw [if_neg (by simp), if_neg (by simp [normal]), if_pos (by simp [normal])]
        cases e.retryAfter with
        | none => rfl
        | some after => exact (apply_ite some _ _ _).symm

theorem resolved_again {failure : LlmFailure} (allows : Allows policy e attempt failure) :
    waterfall [retryListener policy e] { attempt, failure, providerRetryAfter := e.retryAfter, stop := e.stop } =
      { attempt, failure, providerRetryAfter := e.retryAfter, stop := e.stop, retry := true,
        delay := delayOf policy e attempt } := by
  obtain ⟨running, waited, may⟩ := allows
  unfold waterfall retryListener
  rw [decideRetry_eq { attempt, failure, providerRetryAfter := e.retryAfter, stop := e.stop } e rfl rfl,
    if_pos ⟨running, may⟩, waited]
  rfl

theorem resolved_last {failure : LlmFailure} (refuses : ¬ Allows policy e attempt failure) :
    waterfall [retryListener policy e] { attempt, failure, providerRetryAfter := e.retryAfter, stop := e.stop } =
      { attempt, failure, providerRetryAfter := e.retryAfter, stop := e.stop } := by
  unfold waterfall retryListener
  rw [decideRetry_eq { attempt, failure, providerRetryAfter := e.retryAfter, stop := e.stop } e rfl rfl]
  split
  · rfl
  · next found =>
      split at found
      · next may =>
          have waited : e.stopWaiting = true := by
            by_contra quiet
            exact refuses ⟨may.1, by simpa using quiet, may.2⟩
          rw [if_pos waited]
          rfl
      · cases found

theorem streamed_eq (chunks : List StreamChunk) : moveRequest maxTokensAsSuccess log a (.streaming t) (.chunks chunks) =
    if (StepAccumulator.accumulate chunks).why = .error ∧ (StepAccumulator.accumulate chunks).failure.isSome ∧ ¬ a.stop then
      goto a (.retrying t (StepAccumulator.accumulate chunks))
    else goto a (.committing t (StepAccumulator.accumulate chunks)) := rfl

/-- The attempt is made again, after the delay of the decision. -/
theorem attemptOnce_again (again : Again policy e attempt) : attemptOnce policy maxTokensAsSuccess log a t e attempt =
    some (.streaming t, some (delayOf policy e attempt)) := by
  obtain ⟨failure, why, failed, allows⟩ := again
  unfold attemptOnce
  rw [streamed_eq, if_pos ⟨why, by simp [failed], by simp [allows.1]⟩]
  simp only [goto, Option.bind_eq_bind, Option.bind_some, failed, resolved_again allows]
  rfl

/-- The step goes on to its commit. -/
theorem attemptOnce_last (last : ¬ Again policy e attempt) : attemptOnce policy maxTokensAsSuccess log a t e attempt =
    some (.committing t (StepAccumulator.accumulate e.chunks), none) := by
  unfold attemptOnce
  rw [streamed_eq]
  split
  · next fails =>
      obtain ⟨why, some, -⟩ := fails
      obtain ⟨failure, failed⟩ := Option.isSome_iff_exists.mp some
      have refuses : ¬ Allows policy e attempt failure := fun allows => last ⟨failure, why, failed, allows⟩
      simp only [goto, Option.bind_eq_bind, Option.bind_some, failed, resolved_last refuses]
      rfl
  · rfl

/-- The loop from an attempt on, which `n` more retries follow. -/
theorem requests_from {n fuel k : Nat} (again : ∀ j, k ≤ j → j < k + n → Again policy (env j) (UInt32.ofNat j))
    (last : ¬ Again policy (env (k + n)) (UInt32.ofNat (k + n))) :
    requests policy env maxTokensAsSuccess log a t (n + 1 + fuel) k (UInt32.ofNat k) =
      some (.committing t (StepAccumulator.accumulate (env (k + n)).chunks),
        (List.range' k n).map fun j => delayOf policy (env j) (UInt32.ofNat j)) := by
  induction n generalizing k with
  | zero =>
      rw [Nat.add_zero] at last
      rw [Nat.zero_add, Nat.add_comm, requests, attemptOnce_last last]
      rfl
  | succ n ih =>
      have shift : k + 1 + n = k + (n + 1) := by omega
      have rest := ih (k := k + 1) (fun j _ _ => again j (by omega) (by omega)) (shift ▸ last)
      rw [show n + 1 + 1 + fuel = (n + 1 + fuel) + 1 by omega, requests, attemptOnce_again (again k (le_refl k) (by omega))]
      have next : UInt32.ofNat k + 1 = UInt32.ofNat (k + 1) := (UInt32.ofNat_add k 1).symm
      simp only [Option.bind_eq_bind, Option.bind_some, next, rest]
      rw [List.range'_succ, List.map_cons, shift]
      rfl

theorem requests_endless (again : ∀ k, Again policy (env k) (UInt32.ofNat k)) (fuel k : Nat) :
    requests policy env maxTokensAsSuccess log a t fuel k (UInt32.ofNat k) = none := by
  induction fuel generalizing k with
  | zero => rfl
  | succ fuel ih =>
      have next : UInt32.ofNat k + 1 = UInt32.ofNat (k + 1) := (UInt32.ofNat_add k 1).symm
      rw [requests, attemptOnce_again (again k)]
      simp only [Option.bind_eq_bind, Option.bind_some, next, ih]
      rfl

/-- In the normal mode the retries run out. -/
theorem retries_end (normal : policy.mode = .normal) : ∃ n ≤ policy.maxRetries.toNat,
    (∀ k < n, Again policy (env k) (UInt32.ofNat k)) ∧ ¬ Again policy (env n) (UInt32.ofNat n) := by
  classical
  have spent : ¬ Again policy (env policy.maxRetries.toNat) (UInt32.ofNat policy.maxRetries.toNat) := by
    rintro ⟨failure, -, -, -, -, may⟩
    have left := (may normal).1
    rw [UInt32.ofNat_toNat] at left
    exact UInt32.lt_irrefl _ left
  have some : ∃ n, ¬ Again policy (env n) (UInt32.ofNat n) := ⟨_, spent⟩
  exact ⟨Nat.find some, Nat.find_min' some spent, fun k before => not_not.mp (Nat.find_min some before), Nat.find_spec some⟩

end

/-- A step streams its request again as long as the attempts fail, the plugin allows it and no stop is requested, and goes on
to commit what the last attempt delivered; before each retry it waits for what the provider asked for, within the bound, or
for the initial delay doubled with each attempt. In the normal mode that is never more than the policy's number of retries. -/
theorem retries_exact (policy : RetryPolicy) (env : Nat → Attempt) (maxTokensAsSuccess : Bool) (log : Log) (a : AgentState)
    (t : TurnState) :
    (∀ n, (∀ k < n, Again policy (env k) (UInt32.ofNat k)) → ¬ Again policy (env n) (UInt32.ofNat n) → ∀ fuel,
      requests policy env maxTokensAsSuccess log a t (n + 1 + fuel) 0 0 =
        some (.committing t (StepAccumulator.accumulate (env n).chunks),
          (List.range n).map fun k => delayOf policy (env k) (UInt32.ofNat k))) ∧
    (policy.mode = .normal → ∃ n ≤ policy.maxRetries.toNat,
      (∀ k < n, Again policy (env k) (UInt32.ofNat k)) ∧ ¬ Again policy (env n) (UInt32.ofNat n)) ∧
    ((∀ k, Again policy (env k) (UInt32.ofNat k)) → ∀ fuel,
      requests policy env maxTokensAsSuccess log a t fuel 0 0 = none) ∧
    ∀ e attempt, (1 ≤ policy.maxDelay → 1 ≤ delayOf policy e attempt ∧ delayOf policy e attempt ≤ policy.maxDelay) ∧
      (policy.jitter = false → e.retryAfter = none →
        delayOf policy e attempt = min (max (policy.initialDelay * 2 ^ attempt.toNat) 1) policy.maxDelay) := by
  refine ⟨fun n again last fuel => ?_, fun normal => retries_end normal, fun again fuel => requests_endless again fuel 0,
    fun e attempt => ⟨delayOf_bounds, fun plain none => ?_⟩⟩
  · have ends : ¬ Again policy (env (0 + n)) (UInt32.ofNat (0 + n)) := by rwa [Nat.zero_add]
    have loop := @requests_from policy env maxTokensAsSuccess log a t n fuel 0 (fun j _ below => again j (by omega)) ends
    rw [Nat.zero_add] at loop
    rw [List.range_eq_range']
    exact loop
  · unfold delayOf
    rw [none]
    exact backoffDelay_plain plain _

end Araya.Agent
