import Araya.Lsp.Exchange
import Araya.Lsp.Drain
import Mathlib.Data.List.Induction

/-!
One document at a time. The query that holds the lock is the only one inside an exchange, and what it
has queued since its turn began is the beginning of its group.
-/

namespace Araya.Lsp

universe u

def LspMessage.isDocument : LspMessage → Bool
  | .other => false
  | _ => true

/-- The messages of one query, with whether it got to its request. -/
def group (g : String × Bool) : List LspMessage :=
  .didOpen g.1 :: ((if g.2 then [.request g.1] else []) ++ [.didClose g.1])

/-- The beginning of groups that follow each other. -/
def Serialised (messages : List LspMessage) : Prop := ∃ groups : List (String × Bool), messages <+: groups.flatMap group

/-- The document messages whose bytes are in the pipe. -/
def LspServer.documents (s : LspServer) : List LspMessage :=
  (s.wire.written.filterMap fun k => s.wire.items[k]?.map (·.frame)).filter (·.isDocument)

/-- No query is given up while it waits for its turn or for the write of its document. -/
def InTurn (s : LspServer) : ServeOp → Prop
  | .cancel q => ∀ e, s.exchanges[q]? = some e → e.point ≠ .locking ∧
      ∀ item, e.point = .opening item → s.sent item ≠ none
  | _ => True

def lspServer : System LspServer ServeOp where
  start s := s = {}
  step s op s' := s.next op = some s'

/-! The wire -/

namespace Wire
variable {μ : Type u} {w w' w'' : Wire μ}

/-- The wire went on: what is true of it forever stays so. -/
structure Onward (w w' : Wire μ) : Prop where
  tracked : w.Tracked → w'.Tracked
  failed : w.failed = true → w'.failed = true
  closed : w.closed = true → w'.closed = true

theorem Onward.refl (w : Wire μ) : Onward w w := ⟨id, id, id⟩

theorem Onward.of_eq (same : w' = w) : Onward w w' := same ▸ .refl w

theorem Onward.trans (first : Onward w w') (second : Onward w' w'') : Onward w w'' :=
  ⟨second.tracked ∘ first.tracked, second.failed ∘ first.failed, second.closed ∘ first.closed⟩

theorem onward_enqueue (frame : μ) : Onward w (w.enqueue frame) := by
  obtain ⟨-, -, -, connection, -, -⟩ := enqueue_cases (w := w) frame
  exact ⟨fun h => h.enqueue frame, fun failed => connection ▸ failed, fun closed => connection ▸ closed⟩

theorem close_flags : w.close.failed = w.failed ∧ w.close.closed = true := by
  unfold close LspConnection.close
  split
  · next closed => exact ⟨rfl, closed⟩
  · exact ⟨rfl, rfl⟩

theorem onward_close : Onward w w.close :=
  ⟨fun h => h.next (show w.next .close = some w.close from rfl), fun failed => close_flags.1.trans failed, fun _ => close_flags.2⟩

theorem onward_fail (reason : String) : Onward w (w.fail reason) := by
  obtain ⟨failure, failed⟩ := fail_cases (w := w) reason
  refine ⟨fun h => h.next (show w.next (.fail reason) = some (w.fail reason) from rfl), fun _ => ?_, fun closed => ?_⟩ <;> rw [failed]
  exact closed

theorem fail_failed (reason : String) : (w.fail reason).failed = true := by
  obtain ⟨failure, failed⟩ := fail_cases (w := w) reason
  rw [failed]

theorem drainNext_connection : w.drainNext.toLspConnection = w.toLspConnection := by
  unfold drainNext
  split <;> rfl

theorem drains_flags {failure : Option String} (step : w.drains failure = some w') :
    (w.failed = true → w'.failed = true) ∧ w'.closed = w.closed := by
  unfold drains at step
  split at step
  · cases step
  · cases step
    exact ⟨fun failed => (congrArg LspConnection.failed drainNext_connection).trans failed,
      congrArg LspConnection.closed drainNext_connection⟩
  · next k _ =>
      cases step
      cases failure with
      | none =>
          exact ⟨fun failed => (congrArg LspConnection.failed drainNext_connection).trans failed,
            congrArg LspConnection.closed drainNext_connection⟩
      | some failure =>
          obtain ⟨reason, failed⟩ := fail_cases (w := w.signal k (some failure)) "lsp-stdio: write to the language server failed"
          show (_ → ((w.signal k (some failure)).fail _).failed = true) ∧ ((w.signal k (some failure)).fail _).closed = _
          rw [failed]
          exact ⟨fun _ => rfl, rfl⟩

theorem onward_drains {failure : Option String} (step : w.drains failure = some w') : Onward w w' :=
  ⟨fun h => h.next (show w.next (.drain failure) = some w' from step), (drains_flags step).1, fun closed => (drains_flags step).2.trans closed⟩

/-- The frames in the order of their queueing. -/
def queued (w : Wire μ) : List μ := w.items.map (·.frame)

theorem queued_enqueue (frame : μ) : (w.enqueue frame).queued = w.queued ++ [frame] := by
  obtain ⟨items, -⟩ := enqueue_cases (w := w) frame
  unfold queued
  rw [items, List.map_append, List.map_singleton]

theorem queued_signal (k : Nat) (failure : Option String) : (w.signal k failure).queued = w.queued := by
  refine List.ext_getElem? fun j => ?_
  show ((w.items.modify k _).map _)[j]? = (w.items.map _)[j]?
  rw [List.getElem?_map, List.getElem?_map, List.getElem?_modify, Option.map_eq_map, Option.map_map]
  refine congrArg (Option.map · _) (funext fun item => ?_)
  show WriteItem.frame (if k = j then _ else item) = item.frame
  split <;> rfl

theorem queued_drainNext : w.drainNext.queued = w.queued := by
  unfold drainNext
  split <;> rfl

theorem queued_drains {failure : Option String} (step : w.drains failure = some w') : w'.queued = w.queued := by
  unfold drains at step
  split at step
  · cases step
  · cases step
    exact queued_drainNext
  · next k _ =>
      cases step
      cases failure with
      | none => exact queued_drainNext.trans (queued_signal (w := { w with written := w.written ++ [k] }) k none)
      | some failure =>
          obtain ⟨reason, failed⟩ := fail_cases (w := w.signal k (some failure)) "lsp-stdio: write to the language server failed"
          have same : (w.wrote k (some failure)).queued = (w.signal k (some failure)).queued := by
            show ((w.signal k (some failure)).fail _).queued = _
            rw [failed]
            rfl
          exact same.trans (queued_signal k _)

theorem filterMap_range (l : List μ) : (List.range l.length).filterMap (l[·]?) = l := by
  induction l using List.reverseRecOn with
  | nil => rfl
  | append_singleton l a ih =>
      have front : (List.range l.length).filterMap ((l ++ [a])[·]?) = l := by
        refine (List.filterMap_congr fun i member => ?_).trans ih
        exact List.getElem?_append_left (List.mem_range.mp member)
      rw [List.length_append, List.length_singleton, List.range_succ, List.filterMap_append, front, List.filterMap_cons,
        List.getElem?_concat_length, List.filterMap_nil]

/-- What the pipe has taken is the beginning of what was queued. -/
theorem Tracked.written_prefix (h : w.Tracked) (live : w.failed = false) :
    (w.written.filterMap fun k => w.items[k]?.map (·.frame)) <+: w.queued := by
  have front : w.written <+: List.range w.items.length := ⟨w.unsent, h.order live⟩
  have whole : (List.range w.items.length).filterMap (fun k => w.items[k]?.map (·.frame)) = w.queued := by
    unfold queued
    conv_rhs => rw [← filterMap_range w.items, List.map_filterMap]
  exact whole ▸ front.filterMap _

end Wire

/-! The lock -/

/-- The query holds the lock, or has been sent its turn. -/
def ExchangePoint.holds : ExchangePoint → Bool
  | .locking | .ended _ => false
  | _ => true

/-- What the query has queued of a group that it has not ended. -/
def Exchange.begun (e : Exchange) : List LspMessage :=
  match e.point with
  | .opening _ => [.didOpen e.uri]
  | .requesting => [.didOpen e.uri, .request e.uri]
  | _ => []

/-- The document messages in the order of their queueing. -/
def LspServer.queued (s : LspServer) : List LspMessage := s.wire.queued.filter (·.isDocument)

/-- The queries take turns. -/
structure LspServer.Turns (s : LspServer) : Prop where
  live : s.disposed = false
  free : s.locked = false → s.waiters = [] ∧ ∀ (q : Nat) (e : Exchange), s.exchanges[q]? = some e → e.point.holds = false
  one : ∀ (q q' : Nat) (e e' : Exchange), s.exchanges[q]? = some e → s.exchanges[q']? = some e' → e.point.holds = true →
    e'.point.holds = true → q = q'
  waiting : ∀ q ∈ s.waiters, ∃ e, s.exchanges[q]? = some e ∧ e.point = .locking
  apart : s.waiters.Nodup
  documents : ∃ (groups : List (String × Bool)) (tail : List LspMessage), s.queued = groups.flatMap group ++ tail ∧
    (∀ (q : Nat) (e : Exchange), s.exchanges[q]? = some e → e.point.holds = true → tail = e.begun) ∧
    ((∀ (q : Nat) (e : Exchange), s.exchanges[q]? = some e → e.point.holds = false) → tail = [])

namespace LspServer
variable {s s' : LspServer} {q : Nat} {e : Exchange}

theorem setPoint_cases {point : ExchangePoint} {j : Nat} {e' : Exchange} (found : (s.setPoint q point).exchanges[j]? = some e') :
    ∃ e, s.exchanges[j]? = some e ∧ (j = q ∧ e' = { e with point } ∨ j ≠ q ∧ e' = e) := by
  obtain ⟨e, before, ⟨here, rfl⟩ | ⟨other, rfl⟩⟩ := getElem?_modify_cases found
  · exact ⟨e, before, .inl ⟨here.symm, rfl⟩⟩
  · exact ⟨e', before, .inr ⟨fun here => other here.symm, rfl⟩⟩

/-- The holder of the lock goes on inside its turn. -/
theorem Turns.proceed (h : s.Turns) (found : s.exchanges[q]? = some e) (holding : e.point.holds = true)
    {point : ExchangePoint} (still : point.holds = true) {wire : Wire LspMessage} {more : List LspMessage}
    (queued : wire.queued.filter (·.isDocument) = s.queued ++ more)
    (fits : ∃ groups : List (String × Bool), e.begun ++ more = groups.flatMap group ++ ({ e with point } : Exchange).begun) :
    ({ s with wire }.setPoint q point).Turns := by
  have before : ∀ {j : Nat} {e' : Exchange}, ({ s with wire }.setPoint q point).exchanges[j]? = some e' →
      e'.point.holds = true → ∃ e, s.exchanges[j]? = some e ∧ e.point.holds = true := by
    intro j e' found' holds
    obtain ⟨e'', there, ⟨rfl, rfl⟩ | ⟨-, rfl⟩⟩ := setPoint_cases found'
    · cases Option.some.inj (found.symm.trans there)
      exact ⟨e, found, holding⟩
    · exact ⟨e', there, holds⟩
  have own : ({ s with wire }.setPoint q point).exchanges[q]? = some { e with point } := by
    show (s.exchanges.modify q _)[q]? = _
    rw [List.getElem?_modify_eq, found]
    rfl
  constructor
  case live => exact h.live
  case free =>
      intro unlocked
      exact absurd ((h.free unlocked).2 q e found) (by rw [holding]; exact Bool.false_ne_true.symm)
  case one =>
      intro j j' a a' found' found'' holds holds'
      obtain ⟨b, there, hb⟩ := before found' holds
      obtain ⟨b', there', hb'⟩ := before found'' holds'
      exact h.one j j' b b' there there' hb hb'
  case waiting =>
      intro j member
      obtain ⟨a, there, locking⟩ := h.waiting j member
      have other : q ≠ j := by
        rintro rfl
        cases Option.some.inj (found.symm.trans there)
        rw [locking] at holding
        cases holding
      exact ⟨a, (List.getElem?_modify_ne _ _ other).trans there, locking⟩
  case apart => exact h.apart
  case documents =>
      obtain ⟨groups, tail, split, held, -⟩ := h.documents
      obtain ⟨added, fits⟩ := fits
      refine ⟨groups ++ added, ({ e with point } : Exchange).begun, ?_, ?_, ?_⟩
      · show wire.queued.filter _ = _
        rw [queued, split, held q e found holding, List.append_assoc, fits, List.flatMap_append, List.append_assoc]
      · intro j e' found' holds
        obtain ⟨a, there, ha⟩ := before found' holds
        cases h.one q j e a found there holding ha
        exact congrArg Exchange.begun (Option.some.inj (own.symm.trans found'))
      · intro none
        exact absurd (none q _ own) (by rw [still]; exact Bool.false_ne_true.symm)

theorem begun_idle {e : Exchange} (idle : e.point.holds = false) : e.begun = [] := by
  unfold Exchange.begun
  cases at_ : e.point with
  | opening | requesting =>
      rw [at_] at idle
      cases idle
  | _ => rfl

/-- Nobody holds the lock, and the first waiter gets it. -/
theorem Turns.unlock (live : s.disposed = false) (locked : s.locked = true)
    (idle : ∀ (q : Nat) (e : Exchange), s.exchanges[q]? = some e → e.point.holds = false)
    (waiting : ∀ q ∈ s.waiters, ∃ e, s.exchanges[q]? = some e ∧ e.point = .locking) (apart : s.waiters.Nodup)
    (documents : ∃ groups : List (String × Bool), s.queued = groups.flatMap group) : s.unlock.Turns := by
  obtain ⟨groups, whole⟩ := documents
  have split : s.queued = groups.flatMap group ++ [] := whole.trans (List.append_nil _).symm
  unfold LspServer.unlock
  cases queue : s.waiters with
  | nil =>
      refine ⟨live, fun _ => ⟨rfl, idle⟩, fun q q' e e' found _ holds _ => ?_, fun q member => (by cases member),
        List.nodup_nil, groups, [], split, ?_, fun _ => rfl⟩
      · exact absurd (holds.symm.trans (idle q e found)) Bool.false_ne_true.symm
      · exact fun q e found holds => absurd (holds.symm.trans (idle q e found)) Bool.false_ne_true.symm
  | cons q waiters =>
      rw [queue] at waiting apart
      obtain ⟨e, found, locking⟩ := waiting q List.mem_cons_self
      have cases_ : ∀ {j : Nat} {a : Exchange}, ({ s with waiters }.grant q).exchanges[j]? = some a → ∃ b, s.exchanges[j]? = some b ∧
          (j = q ∧ a = { e with point := .granted } ∨ j ≠ q ∧ a = b) := by
        intro j a there
        obtain ⟨b, before, ⟨rfl, rfl⟩ | ⟨other, rfl⟩⟩ := getElem?_modify_cases there
        · cases Option.some.inj (found.symm.trans before)
          exact ⟨e, found, .inl ⟨rfl, if_pos locking⟩⟩
        · exact ⟨a, before, .inr ⟨fun here => other here.symm, rfl⟩⟩
      have only : ∀ {j : Nat} {a : Exchange}, ({ s with waiters }.grant q).exchanges[j]? = some a → a.point.holds = true →
          j = q ∧ a = { e with point := .granted } := by
        intro j a there holds
        obtain ⟨b, before, here | ⟨-, rfl⟩⟩ := cases_ there
        · exact here
        · exact absurd (holds.symm.trans (idle j a before)) Bool.false_ne_true.symm
      constructor
      case live => exact live
      case free => exact fun unlocked => absurd (locked.symm.trans unlocked) Bool.false_ne_true.symm
      case one => exact fun j j' a a' there there' holds holds' => (only there holds).1.trans (only there' holds').1.symm
      case waiting =>
          intro j member
          obtain ⟨a, there, at_⟩ := waiting j (List.mem_cons_of_mem _ member)
          have other : q ≠ j := fun here => (List.nodup_cons.mp apart).1 (here ▸ member)
          exact ⟨a, (List.getElem?_modify_ne _ _ other).trans there, at_⟩
      case apart => exact (List.nodup_cons.mp apart).2
      case documents =>
          refine ⟨groups, [], split, fun j a there holds => ?_, fun _ => rfl⟩
          rw [(only there holds).2]
          rfl

/-- The holder of the lock ends with nothing begun. -/
theorem Turns.finish (h : s.Turns) (found : s.exchanges[q]? = some e) (holding : e.point.holds = true)
    (nothing : e.begun = []) (error : Option String) : (s.finish q error).Turns := by
  obtain ⟨groups, tail, split, held, -⟩ := h.documents
  have locked : s.locked = true := by
    by_contra unlocked
    have idle := (h.free (Bool.eq_false_iff.mpr unlocked)).2 q e found
    exact Bool.false_ne_true (idle.symm.trans holding)
  refine Turns.unlock h.live locked (fun j a there => ?_) (fun j member => ?_) h.apart ⟨groups, ?_⟩
  · obtain ⟨b, before, ⟨rfl, rfl⟩ | ⟨other, rfl⟩⟩ := setPoint_cases there
    · rfl
    · refine Bool.eq_false_iff.mpr fun holds => other (h.one j q a e before found holds holding)
  · obtain ⟨a, there, locking⟩ := h.waiting j member
    have other : q ≠ j := by
      rintro rfl
      cases Option.some.inj (found.symm.trans there)
      rw [locking] at holding
      cases holding
    exact ⟨a, (List.getElem?_modify_ne _ _ other).trans there, locking⟩
  · show s.queued = _
    rw [split, held q e found holding, nothing, List.append_nil]

/-- What leaves the lock, the queries and the documents alone. -/
theorem Turns.aside (h : s.Turns) (same : s'.disposed = s.disposed ∧ s'.locked = s.locked ∧ s'.waiters = s.waiters ∧
    s'.exchanges = s.exchanges ∧ s'.queued = s.queued) : s'.Turns := by
  obtain ⟨disposed, locked, waiters, exchanges, queued⟩ := same
  constructor
  case live => exact disposed.trans h.live
  case free =>
      rw [locked, waiters, exchanges]
      exact h.free
  case one =>
      rw [exchanges]
      exact h.one
  case waiting =>
      rw [waiters, exchanges]
      exact h.waiting
  case apart =>
      rw [waiters]
      exact h.apart
  case documents =>
      rw [queued, exchanges]
      exact h.documents

theorem queued_enqueue (message : LspMessage) : (s.wire.enqueue message).queued.filter (·.isDocument) =
    s.queued ++ [message].filter (·.isDocument) := by
  rw [Wire.queued_enqueue, List.filter_append]
  rfl

theorem Turns.afterReady (h : s.Turns) (found : s.exchanges[q]? = some e) (holding : e.point.holds = true)
    (nothing : e.begun = []) (env : Env) : (s.afterReady q e.uri env).Turns := by
  unfold LspServer.afterReady
  split
  · exact h.finish found holding nothing _
  · split
    · exact h.finish found holding nothing _
    · split
      · exact h.finish found holding nothing _
      · refine h.proceed found holding rfl (queued_enqueue _) ⟨[], ?_⟩
        rw [nothing]
        rfl

theorem Turns.enterReady (h : s.Turns) (found : s.exchanges[q]? = some e) (holding : e.point.holds = true)
    (nothing : e.begun = []) (env : Env) : (s.enterReady q e.uri env).Turns := by
  unfold LspServer.enterReady
  split
  · exact h.finish found holding nothing _
  · split
    · exact h.finish found holding nothing _
    · split
      · exact h.afterReady found holding nothing env
      · refine h.proceed found holding rfl (List.append_nil _).symm ⟨[], ?_⟩
        rw [nothing]
        rfl

/-- The document is closed, and the group is complete. -/
theorem Turns.exchanged (h : s.Turns) (found : s.exchanges[q]? = some e) (holding : e.point.holds = true) {b : Bool}
    (begun : e.begun = .didOpen e.uri :: if b then [.request e.uri] else []) (live : s.wire.failed = false)
    (error : Option String) : (s.exchanged q e.uri error).Turns := by
  unfold LspServer.exchanged
  rw [h.live, live, Bool.or_false, if_neg Bool.false_ne_true]
  refine h.proceed found holding rfl (queued_enqueue _) ⟨[(e.uri, b)], ?_⟩
  rw [begun]
  cases b <;> rfl

theorem Turns.opened (h : s.Turns) {item : Nat} (found : s.exchanges[q]? = some e) (point : e.point = .opening item)
    (live : s.wire.failed = false) (env : Env) : (s.opened q e.uri env).Turns := by
  have begun : e.begun = [.didOpen e.uri] := by
    unfold Exchange.begun
    rw [point]
  have holding : e.point.holds = true := by rw [point]; rfl
  unfold LspServer.opened
  split
  · exact h.exchanged found holding (b := false) begun live _
  · refine h.proceed found holding rfl (queued_enqueue _) ⟨[], ?_⟩
    rw [begun]
    rfl

theorem Turns.waits (h : s.Turns) (locked : s.locked = true) (uri : String) :
    ({ s with exchanges := s.exchanges ++ [{ uri := uri }], waiters := s.waiters ++ [s.exchanges.length] } : LspServer).Turns := by
  have before : ∀ {j : Nat} {a : Exchange}, (s.exchanges ++ [{ uri := uri }])[j]? = some a → a.point.holds = true →
      s.exchanges[j]? = some a := by
    intro j a there holds
    rcases getElem?_concat there with old | ⟨-, rfl⟩
    · exact old
    · cases holds
  have kept : ∀ {j : Nat} {a : Exchange}, s.exchanges[j]? = some a → (s.exchanges ++ [{ uri := uri }])[j]? = some a := by
    intro j a there
    exact (List.getElem?_append_left (List.getElem?_eq_some_iff.mp there).1).trans there
  constructor
  case live => exact h.live
  case free => exact fun unlocked => absurd (locked.symm.trans unlocked) Bool.false_ne_true.symm
  case one =>
      intro j j' a a' there there' holds holds'
      exact h.one j j' a a' (before there holds) (before there' holds') holds holds'
  case waiting =>
      intro j member
      rcases List.mem_append.mp member with old | last
      · obtain ⟨a, there, locking⟩ := h.waiting j old
        exact ⟨a, kept there, locking⟩
      · cases List.mem_singleton.mp last
        exact ⟨{ uri := uri }, List.getElem?_concat_length, rfl⟩
  case apart =>
      refine List.nodup_append.mpr ⟨h.apart, List.nodup_singleton _, fun a ha b hb same => ?_⟩
      obtain ⟨e, found, -⟩ := h.waiting a ha
      have bound := (List.getElem?_eq_some_iff.mp found).1
      exact Nat.ne_of_lt bound (same.trans (List.mem_singleton.mp hb))
  case documents =>
      obtain ⟨groups, tail, split, held, none⟩ := h.documents
      exact ⟨groups, tail, split, fun j a there holds => held j a (before there holds) holds,
        fun idle => none fun j a there => idle j a (kept there)⟩

theorem Turns.takes (h : s.Turns) (unlocked : s.locked = false) (uri : String) :
    ({ s with exchanges := s.exchanges ++ [{ uri, point := .granted }], locked := true } : LspServer).Turns := by
  obtain ⟨nobody, idle⟩ := h.free unlocked
  have only : ∀ {j : Nat} {a : Exchange}, (s.exchanges ++ [{ uri, point := .granted }])[j]? = some a → a.point.holds = true →
      j = s.exchanges.length ∧ a = { uri, point := .granted } := by
    intro j a there holds
    rcases getElem?_concat there with old | here
    · exact absurd (holds.symm.trans (idle j a old)) Bool.false_ne_true.symm
    · exact here
  obtain ⟨groups, tail, split, -, none⟩ := h.documents
  rw [none idle] at split
  refine ⟨h.live, fun unlocked => (by cases unlocked), fun j j' a a' there there' holds holds' =>
    (only there holds).1.trans (only there' holds').1.symm, fun j member => ?_, h.apart, groups, [], split,
    fun j a there holds => ?_, fun _ => rfl⟩
  · rw [nobody] at member
    cases member
  · rw [(only there holds).2]
    rfl

theorem Turns.query (h : s.Turns) (uri : String) (env : Env) : (s.query uri env).Turns := by
  unfold LspServer.query
  dsimp only
  rw [if_neg (Bool.eq_false_iff.mp h.live)]
  split
  · next locked => exact h.waits locked uri
  · next unlocked =>
      exact (h.takes (Bool.eq_false_iff.mpr unlocked) uri).enterReady (e := { uri, point := .granted })
        List.getElem?_concat_length rfl rfl env

/-! Where the wire goes -/

theorem finish_wire (q : Nat) (error : Option String) : (s.finish q error).wire = s.wire := by
  unfold finish LspServer.unlock
  split <;> rfl

theorem foldl_grant_wire (waiters : List Nat) : (waiters.foldl grant s).wire = s.wire := by
  induction waiters generalizing s with
  | nil => rfl
  | cons q waiters ih => exact ih (s := s.grant q)

theorem close_wire : s.close.wire = if s.disposed then s.wire else s.wire.close := by
  unfold close
  split
  · rfl
  · exact foldl_grant_wire _

theorem onward_shut : s.wire.Onward s.close.wire := by
  rw [close_wire]
  split
  · exact .refl _
  · exact Wire.onward_close

theorem onward_afterReady (q : Nat) (uri : String) (env : Env) : s.wire.Onward (s.afterReady q uri env).wire := by
  unfold LspServer.afterReady
  split
  · exact .of_eq (finish_wire ..)
  · split
    · exact .of_eq (finish_wire ..)
    · split
      · exact .of_eq (finish_wire ..)
      · exact Wire.onward_enqueue _

theorem onward_enterReady (q : Nat) (uri : String) (env : Env) : s.wire.Onward (s.enterReady q uri env).wire := by
  unfold LspServer.enterReady
  split
  · exact .of_eq (finish_wire ..)
  · split
    · exact .of_eq (finish_wire ..)
    · split
      · exact onward_afterReady ..
      · exact .refl _

theorem onward_exchanged (q : Nat) (uri : String) (error : Option String) : s.wire.Onward (s.exchanged q uri error).wire := by
  unfold LspServer.exchanged
  split
  · exact .of_eq (finish_wire ..)
  · exact Wire.onward_enqueue _

theorem onward_opened (q : Nat) (uri : String) (env : Env) : s.wire.Onward (s.opened q uri env).wire := by
  unfold LspServer.opened
  split
  · exact onward_exchanged ..
  · exact Wire.onward_enqueue _

theorem onward_torn (q : Nat) : s.wire.Onward (s.torn q).wire := by
  unfold torn
  rw [finish_wire]
  split
  · exact .refl _
  · exact onward_shut

theorem onward_resume {env : Env} (step : s.resume q env = some s') : s.wire.Onward s'.wire := by
  obtain ⟨e, found, step⟩ := Option.bind_eq_some_iff.mp step
  split at step
  · cases step
    split
    · exact .refl _
    · exact onward_enterReady ..
  · split at step <;> cases step
    exact onward_afterReady ..
  · obtain ⟨outcome, -, step⟩ := Option.bind_eq_some_iff.mp step
    split at step <;> cases step
    · exact .of_eq (finish_wire ..)
    · exact onward_opened ..
  · obtain ⟨outcome, -, step⟩ := Option.bind_eq_some_iff.mp step
    cases step
    split
    · rw [finish_wire]
      exact onward_shut
    · exact .of_eq (finish_wire ..)
  · cases step

theorem onward_cancel (step : s.cancel q = some s') : s.wire.Onward s'.wire := by
  have shut (error : Option String) : s.wire.Onward (s.close.finish q error).wire := by
    rw [finish_wire]
    exact onward_shut
  obtain ⟨e, found, step⟩ := Option.bind_eq_some_iff.mp step
  split at step
  · cases step
    exact .of_eq (finish_wire ..)
  · cases step
    split
    · exact .refl _
    · exact .of_eq (finish_wire ..)
  · cases step
    exact .of_eq (finish_wire ..)
  · split at step <;> cases step
    · split
      · exact .of_eq (finish_wire ..)
      · exact onward_torn q
    · exact .of_eq (finish_wire ..)
  · cases step
    exact onward_torn q
  · split at step <;> cases step
    · split
      · exact shut _
      · exact .of_eq (finish_wire ..)
    · exact shut _
  · cases step

theorem onward_launched (failure : Option String) : s.wire.Onward (s.launched failure).wire := by
  unfold launched
  split
  · exact .refl _
  · split
    · exact .refl _
    · exact Wire.onward_enqueue _

theorem onward_initialized (failure : Option String) : s.wire.Onward (s.initialized failure).wire := by
  unfold initialized
  split
  · exact .refl _
  · exact Wire.onward_enqueue _

theorem onward_next {op : ServeOp} (step : s.next op = some s') : s.wire.Onward s'.wire := by
  cases op with
  | query uri env =>
      cases step
      unfold query
      dsimp only
      split
      · exact .refl _
      · split
        · exact .refl _
        · exact onward_enterReady (s := { s with
            exchanges := s.exchanges ++ [{ uri, point := .granted }], locked := true }) ..
  | resume q env => exact onward_resume step
  | answered q failure =>
      obtain ⟨e, -, step⟩ := Option.bind_eq_some_iff.mp step
      split at step <;> cases step
      exact onward_exchanged ..
  | cancel q => exact onward_cancel step
  | launch failure =>
      simp only [LspServer.next] at step
      split at step <;> cases step
      exact onward_launched failure
  | initialized failure =>
      simp only [LspServer.next] at step
      split at step <;> cases step
      exact onward_initialized failure
  | notified =>
      simp only [LspServer.next] at step
      split at step
      · obtain ⟨outcome, -, rfl⟩ := Option.map_eq_some_iff.mp step
        exact .refl _
      · cases step
  | answerServer =>
      cases step
      exact Wire.onward_enqueue _
  | drain failure =>
      obtain ⟨wire, drained, rfl⟩ := Option.map_eq_some_iff.mp step
      exact Wire.onward_drains drained
  | lose reason malformed =>
      cases step
      have failed : s.wire.Onward (s.wire.fail reason) := Wire.onward_fail reason
      dsimp only
      split
      · exact failed.trans Wire.onward_close
      · exact failed
  | close =>
      cases step
      exact onward_shut

/-! The run -/

/-- While the connection has neither failed nor been closed, the queries take turns. -/
structure Kept (s : LspServer) : Prop where
  tracked : s.wire.Tracked
  turns : s.wire.failed = false → s.wire.closed = false → s.Turns

theorem Kept.sent_clean (h : s.Kept) (live : s.wire.failed = false) {item : Nat} {outcome : Option String}
    (sent : s.sent item = some outcome) : outcome = none := by
  obtain ⟨entry, found, head⟩ := Option.bind_eq_some_iff.mp sent
  exact h.tracked.clean live entry (List.mem_of_getElem? found) outcome (List.mem_of_mem_head? head)

theorem writeError_clean (live : s.wire.failed = false) : s.writeError none = none := by
  unfold writeError
  rw [live]
  rfl

theorem close_closed (live : s.disposed = false) : s.close.wire.closed = true := by
  rw [close_wire, if_neg (Bool.eq_false_iff.mp live)]
  exact Wire.close_flags.2

theorem torn_closed (live : s.disposed = false) (healthy : s.wire.failed = false) (q : Nat) : (s.torn q).wire.closed = true := by
  unfold torn
  rw [finish_wire, live, healthy, Bool.or_false, if_neg Bool.false_ne_true]
  exact close_closed live

theorem Kept.of_onward (h : s.Kept) (onward : s.wire.Onward s'.wire)
    (turns : s.Turns → s.wire.failed = false → s'.wire.closed = false → s'.Turns) : s'.Kept := by
  refine ⟨onward.tracked h.tracked, fun healthy open_ => ?_⟩
  have healthy' : s.wire.failed = false := Bool.eq_false_iff.mpr fun failed => Bool.eq_false_iff.mp healthy (onward.failed failed)
  have open' : s.wire.closed = false := Bool.eq_false_iff.mpr fun closed => Bool.eq_false_iff.mp open_ (onward.closed closed)
  exact turns (h.turns healthy' open') healthy' open_

theorem Kept.resume (h : s.Kept) {env : Env} (step : s.resume q env = some s') : s'.Kept := by
  refine h.of_onward (onward_resume step) fun turns healthy open_ => ?_
  obtain ⟨e, found, step⟩ := Option.bind_eq_some_iff.mp step
  split at step
  · next point =>
      cases step
      rw [if_neg (Bool.eq_false_iff.mp turns.live)]
      exact turns.enterReady found (by rw [point]; rfl) (by unfold Exchange.begun; rw [point]) env
  · next point =>
      split at step <;> cases step
      exact turns.afterReady found (by rw [point]; rfl) (by unfold Exchange.begun; rw [point]) env
  · next item point =>
      obtain ⟨outcome, sent, step⟩ := Option.bind_eq_some_iff.mp step
      cases h.sent_clean healthy sent
      rw [writeError_clean healthy] at step
      cases step
      exact turns.opened found point healthy env
  · next item error point =>
      obtain ⟨outcome, sent, step⟩ := Option.bind_eq_some_iff.mp step
      cases h.sent_clean healthy sent
      cases step
      rw [writeError_clean healthy]
      exact turns.finish found (by rw [point]; rfl) (by unfold Exchange.begun; rw [point]) error
  · cases step

theorem Kept.cancel (h : s.Kept) (turn : InTurn s (.cancel q)) (step : s.cancel q = some s') : s'.Kept := by
  refine h.of_onward (onward_cancel step) fun turns healthy open_ => ?_
  obtain ⟨e, found, step⟩ := Option.bind_eq_some_iff.mp step
  obtain ⟨taken, written⟩ := turn e found
  have torn : s' = s.torn q → s'.Turns := by
    rintro rfl
    exact absurd ((torn_closed turns.live healthy q).symm.trans open_) Bool.false_ne_true.symm
  split at step
  · next point => exact absurd point taken
  · next point =>
      cases step
      rw [if_neg (Bool.eq_false_iff.mp turns.live)]
      exact turns.finish found (by rw [point]; rfl) (by unfold Exchange.begun; rw [point]) _
  · next point =>
      cases step
      exact turns.finish found (by rw [point]; rfl) (by unfold Exchange.begun; rw [point]) _
  · next item point =>
      split at step
      · rw [if_neg (Bool.eq_false_iff.mp healthy)] at step
        exact torn (Option.some.inj step).symm
      · next unsent =>
          cases sent : s.sent item with
          | none => exact absurd sent (written item point)
          | some outcome => exact absurd (h.sent_clean healthy sent ▸ sent) unsent
  · exact torn (Option.some.inj step).symm
  · next item error point =>
      split at step
      · cases step
        rw [if_neg (Bool.eq_false_iff.mp healthy)]
        exact turns.finish found (by rw [point]; rfl) (by unfold Exchange.begun; rw [point]) error
      · cases step
        rw [finish_wire, close_closed turns.live] at open_
        cases open_
  · cases step

theorem Turns.settled (h : s.Turns) (error : Option String) : (s.settled error).Turns := h.aside ⟨rfl, rfl, rfl, rfl, rfl⟩

theorem Turns.enqueue_other (h : s.Turns) (init : Handshake) : ({ s.enqueue .other with init } : LspServer).Turns :=
  h.aside ⟨rfl, rfl, rfl, rfl, (queued_enqueue .other).trans (List.append_nil _)⟩

theorem Kept.next (h : s.Kept) {op : ServeOp} (turn : InTurn s op) (step : s.next op = some s') : s'.Kept := by
  cases op with
  | resume q env => exact h.resume step
  | cancel q => exact h.cancel turn step
  | query uri env =>
      refine h.of_onward (onward_next step) fun turns _ _ => ?_
      cases step
      exact turns.query uri env
  | answered q failure =>
      refine h.of_onward (onward_next step) fun turns healthy _ => ?_
      obtain ⟨e, found, step⟩ := Option.bind_eq_some_iff.mp step
      split at step
      · next point =>
          cases step
          exact turns.exchanged found (by rw [point]; rfl) (b := true) (by unfold Exchange.begun; rw [point]; rfl) healthy failure
      · cases step
  | launch failure =>
      refine h.of_onward (onward_next step) fun turns _ _ => ?_
      simp only [LspServer.next] at step
      split at step <;> cases step
      unfold launched
      split
      · exact turns.settled _
      · split
        · exact turns.settled _
        · exact turns.enqueue_other .requested
  | initialized failure =>
      refine h.of_onward (onward_next step) fun turns _ _ => ?_
      simp only [LspServer.next] at step
      split at step <;> cases step
      unfold initialized
      split
      · exact turns.settled _
      · exact turns.enqueue_other _
  | notified =>
      refine h.of_onward (onward_next step) fun turns _ _ => ?_
      simp only [LspServer.next] at step
      split at step
      · obtain ⟨outcome, -, rfl⟩ := Option.map_eq_some_iff.mp step
        exact turns.settled _
      · cases step
  | answerServer =>
      refine h.of_onward (onward_next step) fun turns _ _ => ?_
      cases step
      exact turns.enqueue_other s.init
  | drain failure =>
      refine h.of_onward (onward_next step) fun turns _ _ => ?_
      obtain ⟨wire, drained, rfl⟩ := Option.map_eq_some_iff.mp step
      exact turns.aside ⟨rfl, rfl, rfl, rfl, congrArg (List.filter LspMessage.isDocument) (Wire.queued_drains drained)⟩
  | lose reason malformed =>
      have onward : (s.wire.fail reason).Onward s'.wire := by
        cases step
        dsimp only
        split
        · exact Wire.onward_close
        · exact .refl _
      have failed : s'.wire.failed = true := onward.failed (Wire.fail_failed reason)
      exact ⟨(onward_next step).tracked h.tracked, fun healthy => absurd (failed.symm.trans healthy) Bool.false_ne_true.symm⟩
  | close =>
      refine h.of_onward (onward_next step) fun turns _ open_ => ?_
      cases step
      rw [close_closed turns.live] at open_
      cases open_

theorem Kept.start : ({} : LspServer).Kept :=
  ⟨Wire.Tracked.start, fun _ _ => ⟨rfl, fun _ => ⟨rfl, fun _ _ found => (by cases found)⟩,
    fun _ _ _ _ found => (by cases found), fun _ member => (by cases member), List.nodup_nil, [], [], rfl,
    fun _ _ found => (by cases found), fun _ => rfl⟩⟩

theorem begun_prefix (e : Exchange) : ∃ groups : List (String × Bool), e.begun <+: groups.flatMap group := by
  unfold Exchange.begun
  split
  · exact ⟨[(e.uri, false)], [.didClose e.uri], rfl⟩
  · exact ⟨[(e.uri, true)], [.didClose e.uri], rfl⟩
  · exact ⟨[], List.nil_prefix⟩

theorem Turns.serialised (h : s.Turns) : Serialised s.queued := by
  obtain ⟨groups, tail, split, held, none⟩ := h.documents
  have rest : ∃ more : List (String × Bool), tail <+: more.flatMap group := by
    by_cases idle : ∀ (q : Nat) (e : Exchange), s.exchanges[q]? = some e → e.point.holds = false
    · exact ⟨[], none idle ▸ List.nil_prefix⟩
    · push Not at idle
      obtain ⟨q, e, found, holding⟩ := idle
      rw [held q e found (Bool.not_eq_false _ ▸ holding)]
      exact begun_prefix e
  obtain ⟨more, fits⟩ := rest
  refine ⟨groups ++ more, ?_⟩
  rw [split, List.flatMap_append]
  exact List.prefix_append_right_inj _ |>.mpr fits

theorem Kept.serialised (h : s.Kept) (healthy : s.wire.failed = false) (open_ : s.wire.closed = false) :
    Serialised s.documents := by
  have front : s.documents <+: s.queued := (h.tracked.written_prefix healthy).filter _
  obtain ⟨groups, fits⟩ := (h.turns healthy open_).serialised
  exact ⟨groups, front.trans fits⟩

end LspServer

/-- While no query is given up before its turn or before its document is open, the documents of a live
connection are opened and closed one at a time. -/
theorem documents_serialised {s : LspServer} (h : lspServer.Reached InTurn s) (healthy : s.wire.failed = false)
    (open_ : s.wire.closed = false) : Serialised s.documents := by
  have kept : s.Kept := by
    refine h.invariant ?_ fun s op s' _ kept step turn => kept.next turn step
    rintro s rfl
    exact LspServer.Kept.start
  exact kept.serialised healthy open_

/-- The condition as a check. -/
def inTurn? (s : LspServer) : ServeOp → Bool
  | .cancel q =>
    match s.exchanges[q]? with
    | some { point := .locking, .. } => false
    | some { point := .opening item, .. } => (s.sent item).isSome
    | _ => true
  | _ => true

theorem inTurn_of_check {s : LspServer} {op : ServeOp} (h : inTurn? s op = true) : InTurn s op := by
  cases op with
  | cancel q =>
      intro e found
      obtain ⟨uri, point⟩ := e
      simp only [inTurn?, found] at h
      refine ⟨?_, ?_⟩
      · rintro rfl
        cases h
      · rintro item rfl unsent
        exact Bool.false_ne_true ((congrArg Option.isSome unsent).symm.trans h)
  | _ => trivial

/-- Two documents follow each other. -/
theorem documents_serialised_twice : ∃ s : LspServer, s.documents.length = 4 ∧ Serialised s.documents := by
  have played : (System.follow LspServer.next inTurn? ({} : LspServer)
      [.launch none, .drain none, .drain none, .initialized none, .drain none, .drain none, .notified, .query "a" {},
        .query "b" {}, .drain none, .drain none, .resume 0 {}, .drain none, .drain none, .answered 0 none, .drain none,
        .drain none, .resume 0 {}, .resume 1 {}, .drain none, .drain none]).any
      (fun s => s.documents.length == 4 && !s.wire.failed && !s.wire.closed) = true := by decide +kernel
  obtain ⟨s, hs, shown⟩ := (Option.any_eq_true _ _).mp played
  have reached := System.follow_reached (S := lspServer) (P := InTurn) (fun _ _ _ h => h)
    (fun _ _ => inTurn_of_check) hs (.start rfl)
  simp only [Bool.and_eq_true, Bool.not_eq_true', beq_iff_eq] at shown
  exact ⟨s, shown.1.1, documents_serialised reached shown.1.2 shown.2⟩

theorem Serialised.no_second {u v : String} (h : Serialised [.didOpen u, .didOpen v]) : False := by
  obtain ⟨groups, fits⟩ := h
  match groups with
  | [] => cases List.prefix_nil.mp fits
  | (w, true) :: _ | (w, false) :: _ =>
      have second := (List.cons_prefix_cons.mp (List.cons_prefix_cons.mp fits).2).1
      cases second

/-- The caller of a query times out while its document is being opened: it is never closed, and the next
query opens another. -/
theorem document_left_open : ¬ ∀ s : LspServer, lspServer.Reached (fun _ _ => True) s → s.wire.failed = false →
    s.wire.closed = false → Serialised s.documents := by
  intro serialised
  have played : (System.follow LspServer.next (fun _ _ => true) ({} : LspServer)
      [.launch none, .drain none, .drain none, .initialized none, .drain none, .drain none, .notified, .query "a" {},
        .cancel 0, .query "b" {}, .drain none, .drain none, .drain none]).any
      (fun s => s.documents == [.didOpen "a", .didOpen "b"] && !s.wire.failed && !s.wire.closed) = true := by decide +kernel
  obtain ⟨s, hs, shown⟩ := (Option.any_eq_true _ _).mp played
  have reached := System.follow_reached (S := lspServer) (P := fun _ _ => True) (fun _ _ _ h => h)
    (fun _ _ _ => trivial) hs (.start rfl)
  simp only [Bool.and_eq_true, Bool.not_eq_true', beq_iff_eq] at shown
  have both := serialised s reached shown.1.2 shown.2
  rw [shown.1.1] at both
  exact both.no_second

end Araya.Lsp
