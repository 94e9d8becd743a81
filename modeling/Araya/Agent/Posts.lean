import Araya.Agent.Moves
import Araya.Util.Strings

/-!
The messages that the service, the subagents and the job notices make for a session. Their ids are a letter
and the length of the log, which is read before the caller waits for the agent to be created.
-/

namespace Araya.Agent

inductive Letter where
  | u
  | c
  deriving DecidableEq

def Letter.text : Letter → String
  | .u => "u"
  | .c => "c"

structure Minted where
  letter : Letter
  length : Nat
  deriving DecidableEq

def Minted.id (m : Minted) : String := m.letter.text ++ toString m.length

/-- How a message goes into the inbox; chosen before the caller waits. -/
inductive Route where
  | inject
  | steer (options : DriveOptions)
  | followup (options : DriveOptions)

def Route.call (message : Json) (refused : Bool) : Route → Call
  | .inject => .inject message refused
  | .steer options => .steer message options refused
  | .followup options => .followup message options refused

/-- A caller that waits inside `ensure` for the end of the dispatch. -/
inductive Waiting where
  | run (options : DriveOptions) (input : String)
  | post (own : Minted) (message : Json) (route : Route)

/-- The service with the callers inside `ensure`. From `minted` on the fields are histories: the ids made, those
whose message was queued, those of them that were pending already, and the messages of everyone else. -/
structure Posts where
  world : World
  waiting : List Waiting := []
  minted : List Minted := []
  queued : List String := []
  dropped : List String := []
  foreign : List Json := []

inductive PostOp where
  | run (options : DriveOptions) (input : String) (refused : Bool)
  | sendMessage (text : String) (options : DriveOptions) (refused : Bool)
  | deliverSettlement (text : String) (refused : Bool)
  | notice (jobId text : String) (refused : Bool)
  | created (k : Nat) (refused : Bool)
  | notCreated (k : Nat)
  | other (act : Act)

def messageSource (kind : String) (fields : Json.Members) : Json := .obj (fields ++ [("kind", .str kind)])

def textMessage (text : String) (source : Option Json) (id : String) : Json :=
  Llm.userMessageData id [.obj [("type", .str "text"), ("text", .str text)]] source

namespace Posts
variable (c : Posts)

def running : Bool := (c.world.current.bind (c.world.agents[·]?)).any (·.running)

/-- A message of ours enters its queue, or the queue has its id already. -/
def count (id : String) : Posts :=
  { c with
    queued := id :: c.queued
    dropped := if id ∈ (inboxOf c.world.log).ids then id :: c.dropped else c.dropped }

def call (call : Call) : Option Posts := (c.world.call call).map fun world => { c with world }

def mint (letter : Letter) : Minted where
  letter
  length := c.world.log.length

def record (own : Minted) : Posts := { c with minted := own :: c.minted }

/-- `inject`, `steer` and `followup`, once the driver is there. -/
def deliver (own : Minted) (message : Json) (route : Route) (refused : Bool) : Option Posts :=
  (if refused then c else c.count own.id).call (route.call message refused)

def wait (waiting : Waiting) : Option Posts := ({ c with waiting := c.waiting ++ [waiting] } : Posts).call .create

def post (letter : Letter) (message : String → Json) (route : Route) (refused : Bool) : Option Posts :=
  let own := c.mint letter
  match c.world.current with
  | some _ => (c.record own).deliver own (message own.id) route refused
  | none => (c.record own).wait (.post own (message own.id) route)

/-- `run`, once the driver is there; an input is queued behind a drive, or it seeds one. -/
def runInput (options : DriveOptions) (input : String) (refused : Bool) : Option Posts :=
  if input.isEmpty then c.call (.run options input refused)
  else
    let own := c.mint .u
    let recorded := c.record own
    (if c.running && !refused then recorded.count own.id else recorded).call (.run options input refused)

/-- What else the service does; a message it accepts is somebody else's. -/
def others (act : Act) : Option Posts :=
  (c.world.next act).map fun world =>
    { c with world, foreign := c.foreign ++ world.accepted.drop c.world.accepted.length }

def next : PostOp → Option Posts
  | .run options input refused =>
    match c.world.current with
    | some _ => c.runInput options input refused
    | none => c.wait (.run options input)
  | .sendMessage text options refused =>
    c.post .u (textMessage text none) (if c.running then .steer options else .followup options) refused
  | .deliverSettlement text refused =>
    c.post .c (textMessage text (some (messageSource "plugin" [("plugin", .str "subagents")])))
      (if c.running then .inject else .followup {}) refused
  | .notice jobId text refused =>
    c.post .c (textMessage text (some (messageSource "notice" [("job_id", .str jobId)])))
      (if c.running then .inject else .followup {}) refused
  | .created k refused =>
    match c.waiting[k]? with
    | none => none
    | some caller =>
      let resumed : Posts := { c with waiting := c.waiting.eraseIdx k }
      -- an agent that is gone by now makes the caller throw
      match c.world.current with
      | none => some resumed
      | some _ =>
        match caller with
        | .run options input => resumed.runInput options input refused
        | .post own message route => resumed.deliver own message route refused
  | .notCreated k =>
    match c.waiting[k]? with
    | none => none
    | some _ => ({ c with waiting := c.waiting.eraseIdx k } : Posts).call .createFailed
  | .other act =>
    match act with
    | .call (.run _ input _) => if input.isEmpty then c.others act else none
    | _ => c.others act

/-- The letter of the message that an operation makes. -/
def letterOf : PostOp → Option Letter
  | .run _ input _ => if c.world.current.isSome && !input.isEmpty then some .u else none
  | .sendMessage _ _ _ => some .u
  | .deliverSettlement _ _ | .notice _ _ _ => some .c
  | .created k _ =>
    match c.waiting[k]? with
    | some (.run _ input) => if c.world.current.isSome && !input.isEmpty then some .u else none
    | _ => none
  | _ => none

end Posts

/-- The service as one session sees it, with all who make messages for the session. -/
def postSystem : System Posts PostOp where
  start c := ∃ log success, c = { world := World.fresh log success, foreign := (World.fresh log success).accepted }
  step c op c' := c.next op = some c'

end Araya.Agent
