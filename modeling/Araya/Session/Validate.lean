import Araya.Session.Surface

/-!
The checks an event passes before it enters a log, and the repair of a log whose
last turn was interrupted: every requested tool call without a result is closed
by a result of unknown outcome.
-/

namespace Araya.Sessions

/-! Validation -/

def need {α : Type} (o : Option α) (what : String) : Except String α :=
  match o with
  | none => .error what
  | some a => .ok a

def ensure (b : Bool) (what : String) : Except String Unit := if b then .ok () else .error what

theorem of_ensure {b : Bool} {what : String} {u : Unit} (h : ensure b what = .ok u) : b = true := by
  unfold ensure at h
  split at h
  · next hb => exact hb
  · cases h

theorem of_need {α : Type} {o : Option α} {what : String} {a : α} (h : need o what = .ok a) : o = some a := by
  cases o with
  | none => cases h
  | some b => exact congrArg some (Except.ok.inj h)

theorem except_bind {ε α β : Type} {x : Except ε α} {f : α → Except ε β} {b : β}
    (h : (x >>= f) = .ok b) : ∃ a, x = .ok a ∧ f a = .ok b := by
  cases x with
  | error e => cases h
  | ok a => exact ⟨a, rfl, h⟩

theorem except_ok_bind {ε α β : Type} (a : α) (f : α → Except ε β) :
    ((Except.ok a : Except ε α) >>= f) = f a := rfl

def nonEmpty (o : Option String) : Option String := o.filter fun s => s != ""

theorem nonEmpty_some (s : String) : nonEmpty (some s) = if s = "" then none else some s := by
  by_cases h : s = "" <;> simp [nonEmpty, Option.filter, h]

def requireId (msg : Json.Members) (type : String) : Except String Unit :=
  ensure (nonEmpty (Json.stringField msg "id")).isSome
    ("session event '" ++ type ++ "' message lacks a non-empty string id")

def requireContent (msg : Json.Members) (type : String) : Except String Unit :=
  ensure (Json.arrayField msg "content").isSome
    ("session event '" ++ type ++ "' message lacks an array content")

def checkedMessage (ev : Event) : Except String Json.Members := do
  let o ← need ev.data.ifObject ("session event '" ++ ev.type ++ "' is not a JSON object")
  if ev.type = "user/message" ∨ ev.type = "tool/result" then .ok o
  else
    need (Json.objectField o "message")
      ("session event '" ++ ev.type ++ "' must wrap the message under \"message\"")

def validateReplacement (ev : Event) (m : Json) : Except String Unit := do
  let msg ← need m.ifObject "session event 'surface/replace' message is not an object"
  requireId msg ev.type
  requireContent msg ev.type
  let role ← need (Json.stringField msg "role") "session event 'surface/replace' message lacks a role"
  ensure (parseRole role).isSome
    "session event 'surface/replace' message role must be user, assistant, system, or tool_result"

def validateReplace (ev : Event) : Except String Unit := do
  let o ← need ev.data.ifObject "session event 'surface/replace' is not a JSON object"
  let start ← need (Json.intField o "start_seq")
    "session event 'surface/replace' lacks an integer start_seq"
  let stop ← need (Json.intField o "end_seq") "session event 'surface/replace' lacks an integer end_seq"
  ensure (0 ≤ start && start < stop)
    "session event 'surface/replace' span must satisfy 0 <= start_seq < end_seq"
  ensure (stop ≤ (ev.seq : Int))
    ("session event 'surface/replace' spans into the future (end_seq " ++ toString stop ++
      " beyond seq " ++ toString ev.seq ++ ")")
  match Json.find? o "message" with
  | none => .ok ()
  | some m => validateReplacement ev m

def validateSystem (msg : Json.Members) : Except String Unit := do
  let src ← need (Json.objectField msg "source") "session event 'system/message' lacks a source object"
  ensure (Json.stringField src "kind" == some "plugin")
    "session event 'system/message' source kind must be \"plugin\""
  ensure (nonEmpty (Json.stringField src "plugin")).isSome
    "session event 'system/message' source lacks a non-empty plugin name"

def validateToolResult (msg : Json.Members) : Except String Unit := do
  let content := (Json.arrayField msg "content").getD []
  ensure (content.length == 1) "session event 'tool/result' content must have exactly one block"
  let block ← need (content.head?.bind Json.ifObject)
    "session event 'tool/result' content block is not an object"
  let callId ← need (nonEmpty (Json.stringField block "tool_call_id"))
    "session event 'tool/result' block lacks a non-empty tool_call_id"
  let src ← need (Json.objectField msg "source") "session event 'tool/result' lacks a source object"
  ensure (Json.stringField src "call_id" == some callId)
    "session event 'tool/result' source call_id does not match the block tool_call_id"

def validateUser (msg : Json.Members) : Except String Unit :=
  match Json.find? msg "source" with
  | none => .ok ()
  | some source => do
    let src ← need source.ifObject "session event 'user/message' source must be an object"
    ensure (nonEmpty (Json.stringField src "kind")).isSome
      "session event 'user/message' source lacks a non-empty string kind"

/-- The envelope checks of the built-in types; other vocabulary is admissible. -/
def validateEvent (ev : Event) : Except String Unit :=
  if isBuiltinSurfaceType ev.type = false then .ok ()
  else if ev.type = "surface/replace" then validateReplace ev
  else do
    let msg ← checkedMessage ev
    requireId msg ev.type
    requireContent msg ev.type
    if ev.type = "system/message" then validateSystem msg
    else if ev.type = "tool/result" then validateToolResult msg
    else if ev.type = "user/message" then validateUser msg
    else .ok ()

def Event.Valid (ev : Event) : Prop := validateEvent ev = .ok ()

instance (ev : Event) : Decidable ev.Valid :=
  match h : validateEvent ev with
  | .ok _ => isTrue h
  | .error _ => isFalse fun hv => by rw [Event.Valid, h] at hv; cases hv

/-- Time stamps and the ignorable mark are outside the checks. -/
theorem Event.valid_congr {a b : Event} (seq : a.seq = b.seq) (type : a.type = b.type)
    (data : a.data = b.data) : a.Valid ↔ b.Valid := by
  obtain ⟨seq', _, type', data', _⟩ := a
  obtain ⟨_, _, _, _, _⟩ := b
  subst seq type data
  exact Iff.rfl

/-! Values read back from their text pass the same checks. -/

section
variable {ev : Event} {msg : Json.Members}
open Json (normal normalMembers normalItems)

def Event.readBack (ev : Event) : Event := { ev with data := ev.data.normal }

theorem need_map {α β : Type} (o : Option α) (f : α → β) (what : String) :
    need (o.map f) what = (need o what).map f := by
  cases o <;> rfl

theorem need_bind_map {α β : Type} (o : Option α) (f : α → α) (what : String)
    (k k' : α → Except String β) (h : ∀ a, k (f a) = k' a) :
    (need (o.map f) what >>= k) = (need o what >>= k') := by
  cases o with
  | none => rfl
  | some a => exact h a

theorem requireId_normal (type : String) :
    requireId (normalMembers msg) type = requireId msg type := by
  simp [requireId]

theorem requireContent_normal (type : String) :
    requireContent (normalMembers msg) type = requireContent msg type := by
  simp [requireContent]

theorem validateSystem_normal : validateSystem (normalMembers msg) = validateSystem msg := by
  simp only [validateSystem, Json.objectField_normalMembers]
  exact need_bind_map _ _ _ _ _ fun src => by simp

theorem validateToolResult_normal :
    validateToolResult (normalMembers msg) = validateToolResult msg := by
  have length : ((Json.arrayField (normalMembers msg) "content").getD []).length =
      ((Json.arrayField msg "content").getD []).length := by
    rw [Json.arrayField_normalMembers]
    cases Json.arrayField msg "content" <;> simp
  have block : (((Json.arrayField (normalMembers msg) "content").getD []).head?.bind Json.ifObject) =
      (((Json.arrayField msg "content").getD []).head?.bind Json.ifObject).map normalMembers := by
    rw [Json.arrayField_normalMembers]
    cases Json.arrayField msg "content" with
    | none => rfl
    | some items => cases items <;> simp [normalItems]
  simp only [validateToolResult, length, block]
  refine congrArg _ (funext fun _ => ?_)
  refine need_bind_map _ _ _ _ _ fun b => ?_
  simp only [Json.stringField_normalMembers, Json.objectField_normalMembers]
  refine congrArg _ (funext fun call => ?_)
  exact need_bind_map _ _ _ _ _ fun src => by simp

theorem validateUser_normal : validateUser (normalMembers msg) = validateUser msg := by
  simp only [validateUser, Json.find?_normalMembers]
  cases Json.find? msg "source" with
  | none => rfl
  | some source =>
      simp only [Option.map_some, Json.ifObject_normal]
      exact need_bind_map _ _ _ _ _ fun src => by simp

theorem validateReplacement_normal (m : Json) :
    validateReplacement ev.readBack m.normal = validateReplacement ev m := by
  simp only [validateReplacement, Json.ifObject_normal]
  refine need_bind_map _ _ _ _ _ fun msg => ?_
  simp [Event.readBack, requireId_normal, requireContent_normal]

theorem validateReplace_normal (h : validateReplace ev = .ok ()) :
    validateReplace ev.readBack = .ok () := by
  unfold validateReplace at h ⊢
  obtain ⟨o, ho, h⟩ := except_bind h
  obtain ⟨start, hstart, h⟩ := except_bind h
  obtain ⟨stop, hstop, h⟩ := except_bind h
  obtain ⟨_, hspan, h⟩ := except_bind h
  obtain ⟨_, hpast, h⟩ := except_bind h
  have ho' : need ev.readBack.data.ifObject "session event 'surface/replace' is not a JSON object" =
      .ok (normalMembers o) := by
    rw [Event.readBack, Json.ifObject_normal, need_map, ho]
    rfl
  have read : ∀ {key what : String} {n : Int}, need (Json.intField o key) what = .ok n →
      need (Json.intField (normalMembers o) key) what = .ok n := by
    intro key what n hn
    cases hf : Json.intField o key with
    | none => rw [hf] at hn; cases hn
    | some m =>
        rw [hf] at hn
        rw [Json.intField_normalMembers hf]
        exact hn
  rw [ho', except_ok_bind, read hstart, except_ok_bind, read hstop, except_ok_bind, hspan, except_ok_bind]
  refine (congrArg (· >>= _) hpast).trans ?_
  rw [except_ok_bind, Json.find?_normalMembers]
  cases hm : Json.find? o "message" with
  | none => rfl
  | some m =>
      rw [hm] at h
      exact (validateReplacement_normal m).trans h

theorem Event.Valid.readBack (h : ev.Valid) : ev.readBack.Valid := by
  unfold Event.Valid validateEvent at h ⊢
  have htype : ev.readBack.type = ev.type := rfl
  simp only [htype]
  split at h
  · next hb => rw [if_pos hb]
  · next hb =>
      rw [if_neg hb]
      split at h
      · next ht =>
          rw [if_pos ht]
          exact validateReplace_normal h
      · next ht =>
          rw [if_neg ht]
          obtain ⟨msg, hmsg, h⟩ := except_bind h
          have hmsg' : checkedMessage ev.readBack = .ok (normalMembers msg) := by
            unfold checkedMessage at hmsg ⊢
            obtain ⟨o, ho, hmsg⟩ := except_bind hmsg
            rw [Event.readBack, Json.ifObject_normal, need_map, ho]
            simp only [Except.map, except_ok_bind]
            split at hmsg
            · next hu => cases hmsg; rw [if_pos hu]
            · next hu =>
                rw [if_neg hu, Json.objectField_normalMembers, need_map, hmsg]
                rfl
          rw [hmsg', except_ok_bind, requireId_normal, requireContent_normal, validateSystem_normal,
            validateToolResult_normal, validateUser_normal]
          exact h

end

/-! Repair -/

def requestedCall (block : Json) : Option String :=
  block.ifObject.bind fun b =>
    (Json.objectField b "tool_call").bind fun call => Json.stringField call "id"

def requestedCalls (ev : Event) : List String :=
  if ev.type = "assistant/message" then
    match (ev.data.ifObject.bind fun o => Json.objectField o "message").bind fun msg =>
      Json.arrayField msg "content" with
    | none => []
    | some content => content.filterMap requestedCall
  else []

def closedCalls (ev : Event) : List String :=
  if ev.type = "tool/result" then (ev.data.ifObject.bind answeredCall).toList else []

/-- The requested calls of a log without a result in it. -/
def openCalls (log : List Event) : SortedSet String :=
  (log.flatMap closedCalls).foldl SortedSet.erase ((log.flatMap requestedCalls).foldl SortedSet.insert ∅)

def closer (seq : Nat) (time : Int) (callId : String) : Event where
  seq
  time
  type := "tool/result"
  data := .obj [("id", .str ("repair-" ++ callId)), ("role", .str "user"),
    ("content", .arr [.obj [("tool_call_id", .str callId), ("type", .str "tool_result"),
      ("outcome", .str "unknown")]]),
    ("source", .obj [("kind", .str "tool"), ("call_id", .str callId)])]

def closers (time : Int) : Nat → List String → List Event
  | _, [] => []
  | seq, c :: cs => closer seq time c :: closers time (seq + 1) cs

def lastTime (now : Int) (log : List Event) : Int := (log.getLast?.map (·.time)).getD now

def repairInterruptedTurns (now : Int) (log : List Event) : List Event :=
  log ++ closers (lastTime now log) log.length (openCalls log).toList

/-- A closer passes the checks unless it closes a call without a name. -/
theorem closer_valid {seq : Nat} {time : Int} {callId : String} :
    (closer seq time callId).Valid ↔ callId ≠ "" := by
  have id : "repair-" ++ callId ≠ "" := by simp
  by_cases h : callId = "" <;>
    simp [Event.Valid, validateEvent, closer, isBuiltinSurfaceType, checkedMessage, requireId,
      requireContent, validateToolResult, need, ensure, nonEmpty_some, Json.stringField,
      Json.arrayField, Json.objectField, h, id, bind, Except.bind]

end Araya.Sessions
