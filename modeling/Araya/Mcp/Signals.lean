import Araya.Mcp.Connection
import Araya.Util.Lists
import Araya.Util.Machine

/-!
Signals and responses of a connection. A flag that is set while the supervisor is on its way to
the signal channel has left a token there; a reader that lives keeps the session; and an entry
of the pending table is the request that drew its id.
-/

namespace Araya.Mcp

namespace RunPoint

/-- The supervisor has no session. -/
def away : RunPoint → Bool
  | .idle | .spawned | .delayed _ => true
  | _ => false

/-- The supervisor will receive the next signal before it looks at the flags again. -/
def attentive : RunPoint → Bool
  | .handshake _ | .discover _ _ _ | .waiting => true
  | _ => false

end RunPoint

/-- No signal is lost and no response mixed up. -/
structure Faithful (c : ServerConnection) : Prop where
  heard : c.run = .waiting → c.wake = false → c.sessionLost = false ∧ c.resyncQueued = false
  reader : c.readers.length ≤ 1
  own : ∀ (k : Nat) (r : RpcRequest) (v : Json), c.requests[k]? = some r → r.outcome = some (.ok v) →
    ∃ (n : Nat) (m : Inbound), r.slot.map (·.1) = some n ∧ c.frames[n]? = some m ∧ m.id = some (toString r.id) ∧
      m.method = none ∧ m.isError = false ∧ m.result = v
  once : ∀ (k k' : Nat) (r r' : RpcRequest) (n : Nat), c.requests[k]? = some r → c.requests[k']? = some r' →
    r.slot.map (·.1) = some n → r'.slot.map (·.1) = some n → k = k'

def connections (double : UInt64 → List Char) : System ServerConnection Op where
  start c := ∃ config, c = { config }
  step c op c' := c.next double op = some c'

/-! The invariant -/

/-- The table and the history of the requests. -/
structure Matched (c : ServerConnection) : Prop where
  drawn : c.nextId = c.requests.length + 1
  numbered : ∀ (k : Nat) (r : RpcRequest), c.requests[k]? = some r → r.id = k + 1
  waits : ∀ id k, c.pending.find? id = some k → ∃ r, c.requests[k]? = some r ∧ id = toString r.id ∧ r.slot = none
  given : ∀ (k : Nat) (r : RpcRequest) (n : Nat) (response : RpcResponse), c.requests[k]? = some r →
    r.slot = some (n, response) → ∃ m, c.frames[n]? = some m ∧ m.method = none ∧ m.id = some (toString r.id) ∧
      response = m.response
  done : ∀ (k : Nat) (r : RpcRequest) (v : Json), c.requests[k]? = some r → r.outcome = some (.ok v) →
    ∃ n, r.slot = some (n, ⟨false, v⟩)

/-- A session whose signals will be received. -/
structure Hears (c : ServerConnection) : Prop where
  live : c.readers ≠ [] → c.sessionLost = false
  one : c.readers.length ≤ 1
  signal : c.sessionLost = true ∨ c.resyncQueued = true → c.wake = true
  book : Matched c

structure Kept (c : ServerConnection) : Prop where
  away : c.run.away = true → c.readers = []
  live : c.readers ≠ [] → c.sessionLost = false
  one : c.readers.length ≤ 1
  signal : c.run.attentive = true → c.sessionLost = true ∨ c.resyncQueued = true → c.wake = true
  still : c.run = .waiting → c.wake = false
  book : Matched c

section
variable {c c' : ServerConnection} {env : Env} {first : Bool} {tools : List McpTool}

theorem Kept.faithful (h : Kept c) : Faithful c where
  heard waiting empty := by
    have signal := h.signal (by rw [waiting]; rfl)
    rw [empty] at signal
    constructor
    · exact Bool.eq_false_iff.mpr fun lost => Bool.false_ne_true (signal (.inl lost))
    · exact Bool.eq_false_iff.mpr fun queued => Bool.false_ne_true (signal (.inr queued))
  reader := h.one
  own k r v found returned := by
    obtain ⟨n, slot⟩ := h.book.done k r v found returned
    obtain ⟨m, frame, method, id, response⟩ := h.book.given k r n _ found slot
    have success : m.isError = false := (congrArg RpcResponse.isError response).symm
    have value := congrArg RpcResponse.value response
    simp only [Inbound.response, success, Bool.false_eq_true, if_false] at value
    exact ⟨n, m, by rw [slot]; rfl, frame, id, method, success, value.symm⟩
  once k k' r r' n found found' slot slot' := by
    obtain ⟨⟨_, response⟩, given, rfl⟩ := Option.map_eq_some_iff.mp slot
    obtain ⟨⟨_, response'⟩, given', rfl⟩ := Option.map_eq_some_iff.mp slot'
    obtain ⟨m, frame, -, id, -⟩ := h.book.given k r _ _ found given
    obtain ⟨m', frame', -, id', -⟩ := h.book.given k' r' _ _ found' given'
    cases Option.some.inj (frame.symm.trans frame')
    have same := decimal_injective (Option.some.inj (id.symm.trans id'))
    rw [h.book.numbered k r found, h.book.numbered k' r' found'] at same
    exact Nat.succ.inj same

theorem Hears.of_kept (h : Kept c) (attentive : c.run.attentive = true) : Hears c :=
  ⟨h.live, h.one, h.signal attentive, h.book⟩

/-! The table -/

/-- What a request keeps when only its channel is closed. -/
theorem Matched.mark (h : Matched c) {requests : List RpcRequest} {pending : SortedMap String Nat}
    (length : requests.length = c.requests.length)
    (same : ∀ (k : Nat) (r : RpcRequest), requests[k]? = some r → ∃ r', c.requests[k]? = some r' ∧ r.id = r'.id ∧
      r.slot = r'.slot ∧ r.outcome = r'.outcome)
    (sub : ∀ id k, pending.find? id = some k → c.pending.find? id = some k) :
    Matched { c with requests, pending } where
  drawn := h.drawn.trans (congrArg (· + 1) length.symm)
  numbered k r found := by
    obtain ⟨r', before, id, -⟩ := same k r found
    exact id.trans (h.numbered k r' before)
  waits id k entry := by
    obtain ⟨r', before, name, empty⟩ := h.waits id k (sub id k entry)
    obtain ⟨bound, -⟩ := List.getElem?_eq_some_iff.mp before
    have bound' : k < requests.length := by rw [length]; exact bound
    have found : requests[k]? = some requests[k] := List.getElem?_eq_getElem _
    obtain ⟨r'', before', id', slot, -⟩ := same k _ found
    cases Option.some.inj (before.symm.trans before')
    exact ⟨_, found, id' ▸ name, slot.trans empty⟩
  given k r n response found slot := by
    obtain ⟨r', before, id, slot', -⟩ := same k r found
    obtain ⟨m, frame, method, id', value⟩ := h.given k r' n response before (slot'.symm.trans slot)
    exact ⟨m, frame, method, id ▸ id', value⟩
  done k r v found outcome := by
    obtain ⟨r', before, -, slot, outcome'⟩ := same k r found
    obtain ⟨n, slot'⟩ := h.done k r' v before (outcome'.symm.trans outcome)
    exact ⟨n, slot.trans slot'⟩

theorem Matched.aside (h : Matched c) (same : c'.nextId = c.nextId ∧ c'.pending = c.pending ∧ c'.requests = c.requests ∧
    c'.frames = c.frames) : Matched c' := by
  obtain ⟨next, pending, requests, frames⟩ := same
  constructor
  case drawn => exact next ▸ requests ▸ h.drawn
  case numbered => exact requests ▸ h.numbered
  case waits => exact pending ▸ requests ▸ h.waits
  case given => exact requests ▸ frames ▸ h.given
  case done => exact requests ▸ h.done

/-- A request whose channel is closed. -/
theorem modify_closed {l : List RpcRequest} {j k : Nat} {r : RpcRequest}
    (found : (l.modify j fun r => { r with closed := true })[k]? = some r) :
    ∃ r', l[k]? = some r' ∧ r.id = r'.id ∧ r.slot = r'.slot ∧ r.outcome = r'.outcome := by
  obtain ⟨r', before, ⟨-, rfl⟩ | ⟨-, rfl⟩⟩ := getElem?_modify_cases found
  · exact ⟨r', before, rfl, rfl, rfl⟩
  · exact ⟨r, before, rfl, rfl, rfl⟩

theorem foldl_closed {ks : List Nat} {l : List RpcRequest} {k : Nat} {r : RpcRequest}
    (found : (ks.foldl (fun rs k => rs.modify k fun r => { r with closed := true }) l)[k]? = some r) :
    ∃ r', l[k]? = some r' ∧ r.id = r'.id ∧ r.slot = r'.slot ∧ r.outcome = r'.outcome := by
  induction ks generalizing l with
  | nil => exact ⟨r, found, rfl, rfl, rfl⟩
  | cons j ks ih =>
      obtain ⟨r', before, id, slot, outcome⟩ := ih found
      obtain ⟨r'', before, id', slot', outcome'⟩ := modify_closed before
      exact ⟨r'', before, id.trans id', slot.trans slot', outcome.trans outcome'⟩

theorem length_foldl_closed {ks : List Nat} {l : List RpcRequest} :
    (ks.foldl (fun rs k => rs.modify k fun r => { r with closed := true }) l).length = l.length := by
  induction ks generalizing l with
  | nil => rfl
  | cons j ks ih => exact ih.trans (List.length_modify ..)

theorem Matched.failPending (h : Matched c) : Matched c.failPending :=
  h.mark length_foldl_closed (fun _ _ found => foldl_closed found) fun _ _ entry => by cases entry

theorem Matched.send {method : String} {params : Json} {k : Nat} (h : Matched c)
    (sent : c.send method params = .ok (c', k)) : Matched c' ∧ c'.readers = c.readers ∧ c'.sessionLost = c.sessionLost ∧
      c'.resyncQueued = c.resyncQueued ∧ c'.wake = c.wake ∧ c'.run = c.run := by
  unfold ServerConnection.send at sent
  split at sent
  · cases sent
  · cases sent
    refine ⟨?_, rfl, rfl, rfl, rfl, rfl⟩
    have cases_ : ∀ (k : Nat) (r : RpcRequest), (c.requests ++ [⟨c.nextId, method, false, none, none⟩])[k]? = some r →
        c.requests[k]? = some r ∨ k = c.requests.length ∧ r = ⟨c.nextId, method, false, none, none⟩ :=
      fun k r found => getElem?_concat found
    constructor
    case drawn =>
      show c.nextId + 1 = (c.requests ++ [_]).length + 1
      rw [List.length_append, h.drawn]
      rfl
    case numbered =>
      intro k r found
      rcases cases_ k r found with old | ⟨rfl, rfl⟩
      · exact h.numbered k r old
      · exact h.drawn
    case waits =>
      intro id k entry
      have entry' : (c.pending.insert (toString c.nextId) c.requests.length).find? id = some k := entry
      rw [SortedMap.find?_insert] at entry'
      split at entry'
      · next same =>
          cases entry'
          exact ⟨_, List.getElem?_concat_length .., same, rfl⟩
      · obtain ⟨r, found, name, empty⟩ := h.waits id k entry'
        obtain ⟨bound, -⟩ := List.getElem?_eq_some_iff.mp found
        exact ⟨r, (List.getElem?_append_left bound).trans found, name, empty⟩
    case given =>
      intro k r n response found slot
      rcases cases_ k r found with old | ⟨rfl, rfl⟩
      · exact h.given k r n response old slot
      · cases slot
    case done =>
      intro k r v found outcome
      rcases cases_ k r found with old | ⟨rfl, rfl⟩
      · exact h.done k r v old outcome
      · cases outcome

/-- A request that ends: what it returns is what its channel was given. -/
theorem Matched.close {k : Nat} {r : RpcRequest} {outcome : Except String Json} (h : Matched c)
    (found : c.requests[k]? = some r) (returned : ∀ v, outcome = .ok v → ∃ n, r.slot = some (n, ⟨false, v⟩)) :
    Matched (c.close k r outcome) := by
  have step : ∀ (j : Nat) (r' : RpcRequest), (c.close k r outcome).requests[j]? = some r' → ∃ r'',
      c.requests[j]? = some r'' ∧ r'.id = r''.id ∧ r'.slot = r''.slot ∧
        ∀ v, r'.outcome = some (.ok v) → ∃ n, r''.slot = some (n, ⟨false, v⟩) := by
    intro j r' found'
    obtain ⟨r'', before, ⟨rfl, rfl⟩ | ⟨-, rfl⟩⟩ := getElem?_modify_cases found'
    · cases Option.some.inj (found.symm.trans before)
      exact ⟨r, before, rfl, rfl, fun v ended => returned v (Option.some.inj ended)⟩
    · exact ⟨r', before, rfl, rfl, fun v ended => h.done j r' v before ended⟩
  constructor
  case drawn => exact h.drawn.trans (congrArg (· + 1) (List.length_modify ..).symm)
  case numbered =>
    intro j r' found'
    obtain ⟨r'', before, id, -⟩ := step j r' found'
    exact id.trans (h.numbered j r'' before)
  case waits =>
    intro id j entry
    have entry' : (c.pending.erase (toString r.id)).find? id = some j := entry
    rw [SortedMap.find?_erase] at entry'
    split at entry'
    · cases entry'
    · next other =>
        obtain ⟨r', found', name, empty⟩ := h.waits id j entry'
        have apart : k ≠ j := by
          rintro rfl
          cases Option.some.inj (found.symm.trans found')
          exact other name
        exact ⟨r', (List.getElem?_modify_ne _ _ apart).trans found', name, empty⟩
  case given =>
    intro j r' n response found' slot
    obtain ⟨r'', before, id, slot', -⟩ := step j r' found'
    obtain ⟨m, frame, method, id', value⟩ := h.given j r'' n response before (slot'.symm.trans slot)
    exact ⟨m, frame, method, id ▸ id', value⟩
  case done =>
    intro j r' v found' ended
    obtain ⟨r'', before, -, slot, given⟩ := step j r' found'
    obtain ⟨n, slot'⟩ := given v ended
    exact ⟨n, slot.trans slot'⟩

theorem Matched.framed (h : Matched c) (m : Inbound) : Matched { c with frames := c.frames ++ [m] } := by
  refine ⟨h.drawn, h.numbered, h.waits, fun k r n response found slot => ?_, h.done⟩
  obtain ⟨m', frame, method, id, value⟩ := h.given k r n response found slot
  obtain ⟨bound, -⟩ := List.getElem?_eq_some_iff.mp frame
  exact ⟨m', (List.getElem?_append_left bound).trans frame, method, id, value⟩

/-- The request that waits for the id of a response gets it. -/
theorem Matched.deliver {m : Inbound} {id : String} (h : Matched c) (response : m.id = some id) (method : m.method = none) :
    Matched { c.deliver m id with frames := c.frames ++ [m] } := by
  unfold ServerConnection.deliver
  split
  · exact h.framed m
  · next k entry =>
      obtain ⟨r, found, name, empty⟩ := h.waits id k entry
      have step : ∀ (j : Nat) (r' : RpcRequest),
          (c.requests.modify k fun r => { r with slot := some (c.frames.length, m.response) })[j]? = some r' →
          ∃ r'', c.requests[j]? = some r'' ∧ r'.id = r''.id ∧ r'.outcome = r''.outcome ∧
            (j = k ∧ r'.slot = some (c.frames.length, m.response) ∨ j ≠ k ∧ r'.slot = r''.slot) := by
        intro j r' found'
        obtain ⟨r'', before, ⟨rfl, rfl⟩ | ⟨other, rfl⟩⟩ := getElem?_modify_cases found'
        · exact ⟨r'', before, rfl, rfl, .inl ⟨rfl, rfl⟩⟩
        · exact ⟨r', before, rfl, rfl, .inr ⟨other.symm, rfl⟩⟩
      constructor
      case drawn => exact h.drawn.trans (congrArg (· + 1) (List.length_modify ..).symm)
      case numbered =>
        intro j r' found'
        obtain ⟨r'', before, id', -⟩ := step j r' found'
        exact id'.trans (h.numbered j r'' before)
      case waits =>
        intro id' j entry'
        have kept : (c.pending.erase id).find? id' = some j := entry'
        rw [SortedMap.find?_erase] at kept
        split at kept
        · cases kept
        · next other =>
            obtain ⟨r', found', name', empty'⟩ := h.waits id' j kept
            have apart : k ≠ j := by
              rintro rfl
              cases Option.some.inj (found.symm.trans found')
              exact other (name'.trans name.symm)
            exact ⟨r', (List.getElem?_modify_ne _ _ apart).trans found', name', empty'⟩
      case given =>
        intro j r' n answer found' slot
        obtain ⟨r'', before, id', -, ⟨rfl, new⟩ | ⟨-, old⟩⟩ := step j r' found'
        · cases Option.some.inj (found.symm.trans before)
          cases Option.some.inj (new.symm.trans slot)
          exact ⟨m, List.getElem?_concat_length .., method, by rw [response, name, id'], rfl⟩
        · exact (h.framed m).given j r'' n answer before (old.symm.trans slot) |>.imp
            fun _ ⟨frame, method, own, value⟩ => ⟨frame, method, id' ▸ own, value⟩
      case done =>
        intro j r' v found' ended
        obtain ⟨r'', before, -, outcome, ⟨rfl, -⟩ | ⟨-, old⟩⟩ := step j r' found'
        · cases Option.some.inj (found.symm.trans before)
          obtain ⟨n, slot⟩ := h.done j r v found (outcome.symm.trans ended)
          rw [empty] at slot
          cases slot
        · obtain ⟨n, slot⟩ := h.done j r'' v before (outcome.symm.trans ended)
          exact ⟨n, old.trans slot⟩

/-! The supervisor -/

theorem Hears.aside (h : Hears c) (same : c'.readers = c.readers ∧ c'.sessionLost = c.sessionLost ∧
    c'.resyncQueued = c.resyncQueued ∧ c'.wake = c.wake) (book : Matched c') : Hears c' := by
  obtain ⟨readers, lost, queued, wake⟩ := same
  exact ⟨readers ▸ lost ▸ h.live, readers ▸ h.one, lost ▸ queued ▸ wake ▸ h.signal, book⟩

theorem Hears.wait (h : Hears c) : Kept c.wait := by
  unfold ServerConnection.wait
  split
  · exact ⟨fun away => (by cases away), h.live, h.one, fun attentive => (by cases attentive), fun waiting => (by cases waiting),
      h.book.aside ⟨rfl, rfl, rfl, rfl⟩⟩
  · next empty =>
      exact ⟨fun away => (by cases away), h.live, h.one, fun _ => h.signal, fun _ => Bool.eq_false_iff.mpr empty,
        h.book.aside ⟨rfl, rfl, rfl, rfl⟩⟩

theorem Hears.settle (h : Hears c) (error : Option String) : Kept (c.settle error) := by
  have noted : Hears { c with error, ready := c.ready.or (some error) } :=
    h.aside ⟨rfl, rfl, rfl, rfl⟩ (h.book.aside ⟨rfl, rfl, rfl, rfl⟩)
  have failed : Hears ({ c with error, ready := c.ready.or (some error) } : ServerConnection).failPending :=
    noted.aside ⟨rfl, rfl, rfl, rfl⟩ noted.book.failPending
  unfold ServerConnection.settle
  split
  · exact failed.wait
  · exact noted.wait

theorem Hears.discovered (h : Hears c) (first : Bool) (error : Option String) : Kept (c.discovered first error) := by
  unfold ServerConnection.discovered
  split
  · exact h.settle error
  · exact h.wait

theorem Hears.listTools (h : Hears c) (tools : List McpTool) (cursor : String) (first : Bool) :
    Kept (c.listTools tools cursor first) := by
  unfold ServerConnection.listTools
  split
  · exact h.discovered first _
  · next c' k sent =>
      obtain ⟨book, readers, lost, queued, wake, -⟩ := h.book.send sent
      exact ⟨fun away => (by cases away), readers ▸ lost ▸ h.live, readers ▸ h.one, fun _ => lost ▸ queued ▸ wake ▸ h.signal,
        fun waiting => (by cases waiting), book.aside ⟨rfl, rfl, rfl, rfl⟩⟩

theorem Hears.publish (h : Hears c) (env : Env) (tools : List McpTool) (first : Bool) : Kept (c.publish env tools first) := by
  have named : Hears { c with toolNames := tools.map McpTool.name } :=
    h.aside ⟨rfl, rfl, rfl, rfl⟩ (h.book.aside ⟨rfl, rfl, rfl, rfl⟩)
  exact named.discovered first _

theorem Hears.discover (h : Hears c) (env : Env) (first : Bool) : Kept (c.discover env first) := by
  unfold ServerConnection.discover
  split
  · exact h.listTools ..
  · exact h.publish ..

theorem Hears.page (h : Hears c) (env : Env) (tools : List McpTool) (first : Bool) (outcome : Except String Json) :
    Kept (c.page env tools first outcome) := by
  cases outcome with
  | error what => exact h.discovered first _
  | ok result =>
      simp only [ServerConnection.page]
      split
      · exact h.publish ..
      · exact h.listTools ..

theorem Hears.greeted (h : Hears c) (env : Env) (outcome : Except String Json) : Kept (c.greeted env outcome) := by
  cases outcome with
  | error what => exact h.settle _
  | ok result =>
      have read : Hears (c.read result) := h.aside ⟨rfl, rfl, rfl, rfl⟩ (h.book.aside ⟨rfl, rfl, rfl, rfl⟩)
      simp only [ServerConnection.greeted]
      split
      · exact read.settle _
      · split
        · exact read.settle _
        · have written : Hears ((c.read result).write initialized) :=
            read.aside ⟨rfl, rfl, rfl, rfl⟩ (read.book.aside ⟨rfl, rfl, rfl, rfl⟩)
          exact written.discover ..

theorem later_kept (book : Matched c) (alone : c.readers = []) (attempt : Nat) : Kept (c.later attempt) :=
  ⟨fun _ => alone, fun alive => absurd alone alive, alone ▸ Nat.zero_le 1, fun attentive => (by cases attentive),
    fun waiting => (by cases waiting), book.aside ⟨rfl, rfl, rfl, rfl⟩⟩

theorem leave_kept (book : Matched c) (live : c.readers ≠ [] → c.sessionLost = false) (one : c.readers.length ≤ 1) :
    Kept c.leave :=
  ⟨fun away => (by cases away), live, one, fun attentive => (by cases attentive), fun waiting => (by cases waiting),
    book.aside ⟨rfl, rfl, rfl, rfl⟩⟩

theorem unopened_kept (alone : c.readers = []) (book : Matched c) (what : String) : Kept (c.unopened what) := by
  have noted : Matched { c with error := some what, ready := c.ready.or (some (some what)) } :=
    book.aside ⟨rfl, rfl, rfl, rfl⟩
  have gone := leave_kept noted.failPending (fun alive => absurd alone alive) (alone ▸ Nat.zero_le 1 : c.readers.length ≤ 1)
  unfold ServerConnection.unopened
  dsimp only
  split
  · exact gone
  · split
    · exact gone
    · exact later_kept noted.failPending alone _

theorem connect_kept (alone : c.readers = []) (book : Matched c) (env : Env) : Kept (c.connect env) := by
  have opened : Hears c.opened :=
    ⟨fun _ => rfl, by simp [ServerConnection.opened, alone], fun flags => (by rcases flags with h | h <;> cases h),
      book.aside ⟨rfl, rfl, rfl, rfl⟩⟩
  unfold ServerConnection.connect
  split
  · exact unopened_kept alone book _
  · split
    · exact opened.settle _
    · next c' k sent =>
        obtain ⟨book', readers, lost, queued, wake, -⟩ := opened.book.send sent
        exact ⟨fun away => (by cases away), readers ▸ lost ▸ opened.live, readers ▸ opened.one,
          fun _ => lost ▸ queued ▸ wake ▸ opened.signal, fun waiting => (by cases waiting),
          book'.aside ⟨rfl, rfl, rfl, rfl⟩⟩

theorem Kept.lose (h : Kept c) (ended : (c.stopped || c.sessionLost) = true) : Kept c.lose := by
  have left := leave_kept h.book h.live h.one
  unfold ServerConnection.lose
  split
  · exact left
  · next running =>
      have lost : c.sessionLost = true := by simpa [running] using ended
      have alone : c.readers = [] := by
        by_contra alive
        rw [h.live alive] at lost
        cases lost
      have book : Matched c.failPending.closeChannel := h.book.failPending.aside ⟨rfl, rfl, rfl, rfl⟩
      have gone := leave_kept book (fun alive => absurd alone alive) (alone ▸ Nat.zero_le 1 : c.readers.length ≤ 1)
      dsimp only
      split
      · exact gone
      · split
        · split
          · exact gone
          · exact later_kept book alone _
        · exact later_kept book alone _

theorem Kept.woke (h : Kept c) (env : Env) : Kept (c.woke env) := by
  unfold ServerConnection.woke
  split
  · next ended => exact h.lose ended
  · next quiet =>
      have lost : c.sessionLost = false := by
        have := Bool.eq_false_iff.mpr quiet
        exact (Bool.or_eq_false_iff.mp this).2
      split
      · have cleared : Hears { c with resyncQueued := false } :=
          ⟨h.live, h.one, fun flags => (flags.elim (fun h => absurd (lost.symm.trans h) (by decide)) fun h => by cases h),
            h.book.aside ⟨rfl, rfl, rfl, rfl⟩⟩
        exact cleared.discover ..
      · next none =>
          have silent : Hears c :=
            ⟨h.live, h.one, fun flags => flags.elim (fun h => absurd (lost.symm.trans h) (by decide)) fun h => absurd h none,
              h.book⟩
          exact silent.wait

/-! The reader -/

/-- A flag is set and signalled. -/
theorem signal_kept (away : c.run.away = true → c.readers = []) (live : c.readers ≠ [] → c.sessionLost = false)
    (one : c.readers.length ≤ 1) (book : Matched c) : Kept c.signal := by
  unfold ServerConnection.signal
  split
  · exact ⟨fun away => (by cases away), live, one, fun attentive => (by cases attentive), fun waiting => (by cases waiting),
      book.aside ⟨rfl, rfl, rfl, rfl⟩⟩
  · next other => exact ⟨away, live, one, fun _ _ => rfl, fun waiting => absurd waiting other, book.aside ⟨rfl, rfl, rfl, rfl⟩⟩

theorem Kept.readerEnds (h : Kept c) {i : Nat} {begun : Bool} (reader : c.readers[i]? = some begun) : Kept (c.readerEnds i) := by
  have none : c.readers.eraseIdx i = [] := by
    obtain ⟨bound, -⟩ := List.getElem?_eq_some_iff.mp reader
    have length := List.length_eraseIdx_of_lt bound
    have one := h.one
    exact List.eq_nil_of_length_eq_zero (by omega)
  exact signal_kept (fun _ => none) (fun alive => absurd none alive) (none ▸ Nat.zero_le 1) (h.book.aside ⟨rfl, rfl, rfl, rfl⟩)

theorem Kept.readerLoops (h : Kept c) {i : Nat} {begun : Bool} (reader : c.readers[i]? = some begun) :
    Kept (c.readerLoops i) := by
  unfold ServerConnection.readerLoops
  split
  · exact h.readerEnds reader
  · have alive : c.readers ≠ [] := fun none => by
      rw [none] at reader
      cases reader
    have length : (c.readers.set i true).length = c.readers.length := List.length_set ..
    exact ⟨fun away => absurd (h.away away) alive, fun _ => h.live alive, length ▸ h.one, h.signal, h.still,
      h.book.aside ⟨rfl, rfl, rfl, rfl⟩⟩

/-- The fields that the signals are about; the rest is the book of the requests. -/
theorem Kept.aside (h : Kept c) (same : c'.run = c.run ∧ c'.readers = c.readers ∧ c'.sessionLost = c.sessionLost ∧
    c'.resyncQueued = c.resyncQueued ∧ c'.wake = c.wake) (book : Matched c') : Kept c' := by
  obtain ⟨run, readers, lost, queued, wake⟩ := same
  exact ⟨run ▸ readers ▸ h.away, readers ▸ lost ▸ h.live, readers ▸ h.one, run ▸ lost ▸ queued ▸ wake ▸ h.signal,
    run ▸ wake ▸ h.still, book⟩

theorem deliver_same (m : Inbound) (id : String) : (c.deliver m id).run = c.run ∧ (c.deliver m id).readers = c.readers ∧
    (c.deliver m id).sessionLost = c.sessionLost ∧ (c.deliver m id).resyncQueued = c.resyncQueued ∧
    (c.deliver m id).wake = c.wake := by
  unfold ServerConnection.deliver
  split <;> exact ⟨rfl, rfl, rfl, rfl, rfl⟩

theorem signal_framed (frames : List Inbound) :
    ({ c with frames } : ServerConnection).signal = { c.signal with frames } := by
  unfold ServerConnection.signal
  dsimp only
  split <;> rfl

theorem handle_readers (m : Option Inbound) : (c.handle m).readers = c.readers := by
  cases m with
  | none => rfl
  | some m =>
      simp only [ServerConnection.handle, ServerConnection.dispatch]
      split
      · next id _ _ => exact (deliver_same m id).2.1
      · unfold ServerConnection.signal
        split <;> rfl
      · rfl

theorem Kept.handle (h : Kept c) (m : Option Inbound) : Kept (c.handle m) := by
  cases m with
  | none => exact h
  | some m =>
      simp only [ServerConnection.handle, ServerConnection.dispatch]
      split
      · next id response method => exact h.aside (deliver_same m id) (h.book.deliver response method)
      · have queued : Kept ({ c with resyncQueued := true, frames := c.frames ++ [m] } : ServerConnection).signal :=
          signal_kept h.away h.live h.one ((h.book.framed m).aside ⟨rfl, rfl, rfl, rfl⟩)
        exact signal_framed (c := { c with resyncQueued := true }) _ ▸ queued
      · exact h.aside ⟨rfl, rfl, rfl, rfl, rfl⟩ (h.book.framed m)

theorem Kept.resumed (h : Kept c) (k : Nat) (outcome : Except String Json) (env : Env) : Kept (c.resumed k outcome env) := by
  unfold ServerConnection.resumed
  split
  · next at_ =>
      split
      · exact (Hears.of_kept h (by rw [at_]; rfl)).greeted env outcome
      · exact h
  · next at_ =>
      split
      · exact (Hears.of_kept h (by rw [at_]; rfl)).page env _ _ outcome
      · exact h
  · exact h

theorem open_cases {k : Nat} {r : RpcRequest} (h : c.open? k = some r) : c.requests[k]? = some r :=
  (Option.filter_eq_some_iff.mp h).1

theorem Kept.step {double : UInt64 → List Char} {op : Op} (h : Kept c) (step : c.next double op = some c') : Kept c' := by
  cases op with
  | start =>
      simp only [ServerConnection.next] at step
      split at step
      · next idle =>
          cases step
          have alone := h.away (by rw [idle]; rfl)
          exact ⟨fun _ => alone, h.live, h.one, fun attentive => (by cases attentive), fun waiting => (by cases waiting),
            h.book.aside ⟨rfl, rfl, rfl, rfl⟩⟩
      · cases step
  | resume env =>
      simp only [ServerConnection.next] at step
      split at step
      · next spawned =>
          cases step
          exact connect_kept (h.away (by rw [spawned]; rfl)) h.book env
      · cases step
        exact h.woke env
      · cases step
  | tick env =>
      simp only [ServerConnection.next] at step
      split at step
      · next milliseconds delayed =>
          have alone := h.away (by rw [delayed]; rfl)
          split at step
          · cases step
            exact connect_kept alone h.book env
          · cases step
            exact ⟨fun _ => alone, h.live, h.one, fun attentive => (by cases attentive), fun waiting => (by cases waiting),
              h.book.aside ⟨rfl, rfl, rfl, rfl⟩⟩
      · cases step
  | stop =>
      cases step
      exact h.aside ⟨rfl, rfl, rfl, rfl, rfl⟩ (h.book.aside ⟨rfl, rfl, rfl, rfl⟩)
  | call method params stopped =>
      simp only [ServerConnection.next] at step
      split at step
      · cases step
        exact h
      · split at step
        · cases step
          exact h
        · next sent =>
            cases step
            obtain ⟨book, readers, lost, queued, wake, run⟩ := h.book.send sent
            exact h.aside ⟨run, readers, lost, queued, wake⟩ book
  | cancel k =>
      obtain ⟨r, found, rfl⟩ := Option.map_eq_some_iff.mp step
      exact h.aside ⟨rfl, rfl, rfl, rfl, rfl⟩
        (h.book.mark (List.length_modify ..) (fun _ _ found => modify_closed found) fun _ _ entry => entry)
  | complete k env =>
      obtain ⟨r, found, step⟩ := Option.bind_eq_some_iff.mp step
      obtain ⟨⟨n, response⟩, slot, step⟩ := Option.bind_eq_some_iff.mp step
      cases step
      have book : Matched (c.close k r (c.returned double response)) := h.book.close (open_cases found) fun v returned => by
        unfold ServerConnection.returned at returned
        split at returned
        · cases returned
        · next success =>
            cases returned
            exact ⟨n, slot.trans (by rw [← Bool.eq_false_iff.mpr success])⟩
      have closed : Kept (c.close k r (c.returned double response)) := h.aside ⟨rfl, rfl, rfl, rfl, rfl⟩ book
      exact closed.resumed ..
  | fail k what env =>
      obtain ⟨r, found, rfl⟩ := Option.map_eq_some_iff.mp step
      have book : Matched (c.close k r (.error what)) := h.book.close (open_cases found) fun v returned => by cases returned
      have closed : Kept (c.close k r (.error what)) := h.aside ⟨rfl, rfl, rfl, rfl, rfl⟩ book
      exact closed.resumed ..
  | begin i =>
      simp only [ServerConnection.next] at step
      split at step
      · next reader =>
          cases step
          exact h.readerLoops reader
      · cases step
  | frame i text =>
      simp only [ServerConnection.next] at step
      split at step
      · next reader =>
          cases step
          have still := handle_readers (c := c) (text.bind (decode double))
          exact (h.handle (text.bind (decode double))).readerLoops (still.symm ▸ reader)
      · cases step
  | eof i =>
      simp only [ServerConnection.next] at step
      split at step
      · next reader =>
          cases step
          exact h.readerEnds reader
      · cases step

end

/-- In every run of a connection no signal is lost, one reader lives, and a request returns what the
frame with its own id brought. -/
theorem connection_faithful {double : UInt64 → List Char} {c : ServerConnection}
    (h : (connections double).Reached (fun _ _ => True) c) : Faithful c := by
  have kept : Kept c := by
    refine h.invariant ?_ fun c op c' _ kept step _ => kept.step step
    rintro c ⟨config, rfl⟩
    refine ⟨fun _ => rfl, fun alive => absurd rfl alive, Nat.zero_le 1, fun attentive => (by cases attentive),
      fun waiting => (by cases waiting), ?_⟩
    exact ⟨rfl, fun k r found => (by cases found), fun id k entry => (by cases entry),
      fun k r n response found => (by cases found), fun k r v found => (by cases found)⟩
  exact kept.faithful

/-- The greeting of a server, a page of no tools, and a change of the list that comes before the page. -/
def greeting : List Op :=
  [.start, .resume {}, .begin 0,
    .frame 0 (some (.obj [("id", .int 1), ("result", .obj [("capabilities", .obj [("tools", .obj [])])])])),
    .complete 0 {},
    .frame 0 (some (.obj [("method", .str "notifications/tools/list_changed")])),
    .frame 0 (some (.obj [("id", .int 2), ("result", .obj [("tools", .arr [])])])), .complete 1 {}]

theorem connection_faithful_greeted :
    ∃ c : ServerConnection, c.run.attentive = false ∧ c.resyncQueued = true ∧ c.requests.length = 2 ∧
      c.readers.length = 1 ∧ Faithful c := by
  have played : (System.follow (ServerConnection.next fun _ => []) (fun _ _ => true) {} greeting).any (fun c =>
      !c.run.attentive && c.resyncQueued && c.requests.length == 2 && c.readers.length == 1) = true := by
    decide +kernel
  obtain ⟨c, run, shown⟩ := (Option.any_eq_true _ _).mp played
  have reached := System.follow_reached (S := connections fun _ => []) (P := fun _ _ => True)
    (fun _ _ _ h => h) (fun _ _ _ => trivial) run (.start ⟨{}, rfl⟩)
  simp only [Bool.and_eq_true, Bool.not_eq_true', beq_iff_eq] at shown
  obtain ⟨⟨⟨attentive, queued⟩, requests⟩, readers⟩ := shown
  exact ⟨c, attentive, queued, requests, readers, connection_faithful reached⟩

end Araya.Mcp
