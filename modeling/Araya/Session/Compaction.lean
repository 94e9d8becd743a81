import Araya.Session.Nodes
import Mathlib.Data.List.TakeWhile

/-!
The splice of a surface as the code makes it: one pass moves every kept node down in place, the rest is cut off, and the
replacement goes where the first removed node was. The result is that of the splice on lists, for every surface that a
session can have.
-/

namespace Araya.Sessions

open Agent (Numbered outside_eq_filter zip_fst_snd)
open SessionStore

namespace Surface

/-- Each message with the number of its event. -/
def nodes (s : Surface) : List (Message × Nat) := s.messages.zip s.sourceSeqs

/-! The pass -/

/-- The vectors in the middle of the pass. -/
structure Pass where
  messages : List Message
  sourceSeqs : List Nat
  insertAt : Option Nat := none
  write : Nat := 0

/-- The node at index `i`. A moved message leaves something behind, which may depend on what it is moved over. -/
def Pass.visit (moved : Message → Message → Message) (start stop : Nat) (p : Pass) (i : Nat) : Pass :=
  match p.messages[i]?, p.sourceSeqs[i]?, p.messages[p.write]? with
  | some msg, some seq, some target =>
    if start ≤ seq ∧ seq < stop then { p with insertAt := p.insertAt.or (some p.write) }
    else if p.write ≠ i then
      { p with
        messages := (p.messages.set i (moved target msg)).set p.write msg
        sourceSeqs := p.sourceSeqs.set p.write seq
        write := p.write + 1 }
    else { p with write := p.write + 1 }
  | _, _, _ => p

/-- `replace`, in place. -/
def replaceInPlace (moved : Message → Message → Message) (s : Surface) (start stop sourceSeq : Nat)
    (msg : Option Message) : Surface :=
  let p := (List.range s.messages.length).foldl (Pass.visit moved start stop)
    { messages := s.messages, sourceSeqs := s.sourceSeqs }
  let messages := p.messages.take p.write
  let sourceSeqs := p.sourceSeqs.take p.write
  let generation := if p.insertAt.isSome || msg.isSome then s.generation + 1 else s.generation
  match msg with
  | none => { messages, sourceSeqs, generation }
  | some m =>
    let index := p.insertAt.getD messages.length
    { messages := messages.insertIdx index m, sourceSeqs := sourceSeqs.insertIdx index sourceSeq, generation }

/-- The node is not in the span. -/
def beside (start stop : Nat) (n : Message × Nat) : Bool := ¬ (start ≤ n.2 ∧ n.2 < stop)

/-- The splice of a list: the nodes beside the span, with the replacement after those that no removed node precedes. -/
def spliced (start stop : Nat) (replacement nodes : List (Message × Nat)) : List (Message × Nat) :=
  nodes.takeWhile (beside start stop) ++ replacement ++ (nodes.dropWhile (beside start stop)).filter (beside start stop)

section
variable {moved : Message → Message → Message} {start stop : Nat}

theorem visit_inside {front ns : List (Message × Nat)} {n : Message × Nat} {insertAt : Option Nat} {write : Nat}
    (inside : start ≤ n.2 ∧ n.2 < stop) (early : write ≤ front.length) :
    Pass.visit moved start stop ⟨(front ++ n :: ns).map Prod.fst, (front ++ n :: ns).map Prod.snd, insertAt, write⟩ front.length =
      ⟨(front ++ n :: ns).map Prod.fst, (front ++ n :: ns).map Prod.snd, insertAt.or (some write), write⟩ := by
  obtain ⟨target, there⟩ : ∃ target, ((front ++ n :: ns).map Prod.fst)[write]? = some target :=
    ⟨_, List.getElem?_eq_getElem (by simp; omega)⟩
  unfold Pass.visit
  simp only [there]
  simp [inside]

theorem visit_beside (moved : Message → Message → Message) (kept junk ns : List (Message × Nat)) {n : Message × Nat}
    (insertAt : Option Nat) (outside : ¬ (start ≤ n.2 ∧ n.2 < stop)) : ∃ junk' : List (Message × Nat), junk'.length = junk.length ∧
    Pass.visit moved start stop ⟨(kept ++ junk ++ n :: ns).map Prod.fst, (kept ++ junk ++ n :: ns).map Prod.snd, insertAt,
        kept.length⟩ (kept ++ junk).length =
      ⟨(kept ++ [n] ++ junk' ++ ns).map Prod.fst, (kept ++ [n] ++ junk' ++ ns).map Prod.snd, insertAt, (kept ++ [n]).length⟩ := by
  cases junk with
  | nil =>
      refine ⟨[], rfl, ?_⟩
      unfold Pass.visit
      simp [outside]
  | cons j js =>
      refine ⟨js ++ [(moved j.1 n.1, n.2)], by simp, ?_⟩
      unfold Pass.visit
      simp [outside]

/-- From any index on, the pass leaves the kept nodes in front and finds the place of the first removed one. -/
theorem pass_outside (moved : Message → Message → Message) (start stop : Nat) (rest kept junk : List (Message × Nat)) (insertAt : Option Nat) : ∃ left : List (Message × Nat),
    (List.range' (kept ++ junk).length rest.length).foldl (Pass.visit moved start stop)
      ⟨(kept ++ junk ++ rest).map Prod.fst, (kept ++ junk ++ rest).map Prod.snd, insertAt, kept.length⟩ =
    ⟨(kept ++ (outside start stop rest kept.length).1 ++ left).map Prod.fst,
      (kept ++ (outside start stop rest kept.length).1 ++ left).map Prod.snd,
      insertAt.or (outside start stop rest kept.length).2, (kept ++ (outside start stop rest kept.length).1).length⟩ := by
  induction rest generalizing kept junk insertAt with
  | nil => exact ⟨junk, by simp [outside]⟩
  | cons n ns ih =>
      rw [List.length_cons, List.range'_succ, List.foldl_cons]
      by_cases inside : start ≤ n.2 ∧ n.2 < stop
      · rw [visit_inside inside (by simp)]
        obtain ⟨left, passed⟩ := ih kept (junk ++ [n]) (insertAt.or (some kept.length))
        refine ⟨left, ?_⟩
        have place : (insertAt.or (some kept.length)).or (outside start stop ns kept.length).2 =
            insertAt.or (some kept.length) := by cases insertAt <;> rfl
        rw [place] at passed
        rw [outside, if_pos inside]
        simpa [Nat.add_assoc] using passed
      · obtain ⟨junk', same, visited⟩ := visit_beside moved kept junk ns insertAt inside
        obtain ⟨left, passed⟩ := ih (kept ++ [n]) junk' insertAt
        refine ⟨left, ?_⟩
        rw [visited, outside, if_neg inside]
        have index : (kept ++ [n] ++ junk').length = (kept ++ junk).length + 1 := by simp [same]; omega
        rw [index] at passed
        rw [passed]
        simp

end

/-! The nodes afterwards -/

section
variable {s : Surface} {start stop seq : Nat} {msg : Option Message}

theorem nodes_messages (even : s.Even) : s.nodes.map Prod.fst = s.messages := List.map_fst_zip even.le

theorem nodes_sourceSeqs (even : s.Even) : s.nodes.map Prod.snd = s.sourceSeqs := List.map_snd_zip even.ge

/-- In place or not, the splice is the same. -/
theorem replaceInPlace_eq (even : s.Even) (moved : Message → Message → Message) (start stop seq : Nat) (msg : Option Message) :
    s.replaceInPlace moved start stop seq msg = s.replace start stop seq msg := by
  obtain ⟨left, passed⟩ := pass_outside moved start stop s.nodes [] [] none
  rw [List.nil_append, List.nil_append, List.nil_append, nodes_messages even, nodes_sourceSeqs even, List.length_nil,
    ← List.range_eq_range', Option.none_or, nodes, List.length_zip, ← even, Nat.min_self] at passed
  unfold replaceInPlace replace
  rw [passed]
  cases msg <;> simp [List.map_insertIdx]

theorem outside_place_eq (start stop : Nat) (nodes : List (Message × Nat)) (write : Nat) :
    (outside start stop nodes write).2.getD (write + (outside start stop nodes write).1.length) =
      write + (nodes.takeWhile (beside start stop)).length := by
  induction nodes generalizing write with
  | nil => rfl
  | cons n ns ih =>
      unfold outside
      by_cases inside : start ≤ n.2 ∧ n.2 < stop
      · rw [if_pos inside, List.takeWhile_cons_of_neg (by simp [beside, inside])]
        rfl
      · rw [if_neg inside, List.takeWhile_cons_of_pos (by simp [beside, inside])]
        have later := ih (write + 1)
        simp only [List.length_cons]
        rw [show write + ((outside start stop ns (write + 1)).1.length + 1) =
          write + 1 + (outside start stop ns (write + 1)).1.length by omega, later]
        omega

theorem filter_beside (nodes : List (Message × Nat)) : nodes.filter (beside start stop) =
    nodes.takeWhile (beside start stop) ++ (nodes.dropWhile (beside start stop)).filter (beside start stop) := by
  conv_lhs => rw [← List.takeWhile_append_dropWhile (p := beside start stop) (l := nodes), List.filter_append]
  rw [List.filter_eq_self.mpr fun n member => List.mem_takeWhile_imp member]

theorem spliced_nil (nodes : List (Message × Nat)) : spliced start stop [] nodes = nodes.filter (beside start stop) := by
  rw [filter_beside, spliced, List.append_nil]

theorem insertIdx_front {α : Type} (front back : List α) (a : α) : (front ++ back).insertIdx front.length a = front ++ a :: back := by
  induction front with
  | nil => rfl
  | cons b front ih => simp [ih]

theorem nodes_replace : (s.replace start stop seq msg).nodes =
    spliced start stop (msg.toList.map fun m => (m, seq)) s.nodes := by
  have kept : (outside start stop (s.messages.zip s.sourceSeqs) 0).1 =
    (s.messages.zip s.sourceSeqs).filter (beside start stop) := outside_eq_filter _ _ _ _
  have place := outside_place_eq start stop (s.messages.zip s.sourceSeqs) 0
  rw [Nat.zero_add, Nat.zero_add] at place
  unfold nodes spliced replace
  cases msg with
  | none =>
      simp only [zip_fst_snd]
      rw [kept, filter_beside]
      simp
  | some m =>
      simp only [zip_fst_snd]
      rw [place, kept, filter_beside, insertIdx_front]
      simp

theorem outside_isSome (nodes : List (Message × Nat)) (write : Nat) :
    (outside start stop nodes write).2.isSome = true ↔ ∃ n ∈ nodes, beside start stop n = false := by
  induction nodes generalizing write with
  | nil => exact iff_of_false Bool.false_ne_true (by simp)
  | cons n ns ih =>
      unfold outside
      by_cases inside : start ≤ n.2 ∧ n.2 < stop
      · rw [if_pos inside]
        exact iff_of_true rfl ⟨n, List.mem_cons_self, by simp [beside, inside]⟩
      · rw [if_neg inside]
        refine (ih (write + 1)).trans ?_
        simp [beside, inside]

theorem generation_replace : (s.replace start stop seq msg).generation ≠ s.generation ↔
    msg.isSome = true ∨ ∃ n ∈ s.nodes, beside start stop n = false := by
  rw [nodes, ← outside_isSome (s.messages.zip s.sourceSeqs) 0]
  unfold replace
  cases place : (outside start stop (s.messages.zip s.sourceSeqs) 0).2 <;> cases msg <;> simp [place]

/-- A splice under a new number counts up the generation exactly when it changes the nodes. -/
theorem generation_changed (new : seq ∉ s.sourceSeqs) : (s.replace start stop seq msg).generation ≠ s.generation ↔
    (s.replace start stop seq msg).nodes ≠ s.nodes := by
  rw [generation_replace, nodes_replace]
  cases msg with
  | none =>
      refine (or_iff_right (b := ∃ n ∈ s.nodes, beside start stop n = false) Bool.false_ne_true).trans ?_
      show _ ↔ spliced start stop [] s.nodes ≠ s.nodes
      rw [spliced_nil, Ne, List.filter_eq_self]
      simp
  | some m =>
      refine iff_of_true (.inl rfl) fun same => new ?_
      have there : (m, seq) ∈ s.nodes := by
        rw [← same]
        simp [spliced]
      exact (List.of_mem_zip there).2

end
end Surface

/-! Every surface of a session -/

/-- The surfaces that events build: each event has the next number, and pushes a node, replaces a span or does neither. -/
inductive Surface.Built : Surface → Nat → Prop
  | empty : Built {} 0
  | skip {s : Surface} {next : Nat} : Built s next → Built s (next + 1)
  | push {s : Surface} {next : Nat} (msg : Message) : Built s next → Built (s.push next msg) (next + 1)
  | replace {s : Surface} {next : Nat} (moved : Message → Message → Message) (start stop : Nat) (msg : Option Message) :
      Built s next → Built (s.replaceInPlace moved start stop next msg) (next + 1)

section
variable {σ : Type} {s t : Surface} {next : Nat}

theorem Surface.Built.numbered (h : s.Built next) : Numbered s next := by
  induction h with
  | empty => exact ⟨rfl, List.nodup_nil, nofun⟩
  | skip _ ih => exact ih.later
  | push msg _ ih => exact ih.push msg
  | replace moved start stop msg _ ih =>
      rw [replaceInPlace_eq ih.even]
      exact ih.replace start stop msg

theorem Surface.Built.apply (h : s.Built next) (plan : SurfacePlan) : (s.apply next plan).Built (next + 1) := by
  cases plan with
  | none => exact h.skip
  | append m => exact h.push m
  | replace start stop msg =>
      have same := replaceInPlace_eq h.numbered.even (fun _ m => m) start stop next msg
      show (s.replace start stop next msg).Built (next + 1)
      rw [← same]
      exact h.replace (fun _ m => m) start stop msg

/-- Events that are numbered on from `i`. -/
def Counted (i : Nat) (log : List Event) : Prop := log.map (·.seq) = List.range' i log.length

theorem counted_append {i : Nat} {a b : List Event} (front : Counted i a) (back : Counted (i + a.length) b) :
    Counted i (a ++ b) := by
  unfold Counted at *
  rw [List.map_append, front, back, List.length_append, List.range'_append_1]

theorem built_foldLog {ps : List MessageProjection} {log : List Event} (counted : Counted next log)
    (built : s.Built next) (folded : SessionStore.foldLog ps log s = .ok t) : t.Built (next + log.length) := by
  induction log generalizing s next with
  | nil =>
      cases folded
      exact built
  | cons ev rest ih =>
      obtain ⟨plan, folds, folded⟩ := except_bind folded
      obtain ⟨own, others⟩ := List.cons.inj (counted.trans List.range'_succ)
      have applied : (s.apply ev.seq plan).Built (next + 1) := (show ev.seq = next from own) ▸ built.apply plan
      have folds := ih others applied folded
      rwa [List.length_cons, Nat.add_comm rest.length, ← Nat.add_assoc]

theorem counted_closers (time : Int) (i : Nat) (calls : List String) : Counted i (closers time i calls) := by
  induction calls generalizing i with
  | nil => rfl
  | cons c cs ih =>
      unfold Counted closers
      rw [List.map_cons, List.length_cons, List.range'_succ]
      exact congrArg _ (ih (i + 1))

theorem counted_openingLog {now : Int} {options : CreateOptions} {seed : List Event} (counted : Counted 0 seed) :
    Counted 0 (openingLog now options seed) := by
  have repaired : Counted 0 (repairInterruptedTurns now seed) := by
    refine counted_append counted ?_
    rw [Nat.zero_add]
    exact counted_closers _ _ _
  unfold openingLog
  dsimp only
  split
  · refine counted_append repaired ?_
    rw [Nat.zero_add]
    rfl
  · exact repaired

theorem counted_checkSeed {st : SessionStore σ} {i : Nat} {seed checked : List Event}
    (h : st.checkSeed i seed = .ok checked) : Counted i checked := by
  induction seed generalizing i checked with
  | nil =>
      cases h
      rfl
  | cons ev rest ih =>
      obtain ⟨_, own, h⟩ := except_bind h
      obtain ⟨_, _, h⟩ := except_bind h
      obtain ⟨others, checks, h⟩ := except_bind h
      cases h
      unfold Counted
      rw [List.map_cons, List.length_cons, List.range'_succ, ih checks]
      exact congrArg (· :: _) (eq_of_beq (of_ensure own))

theorem prepared_built {st : SessionStore σ} {id : SessionId} {options : CreateOptions} {now : Int} {s : Session}
    (h : st.prepared id options now = .ok s) : s.surface.Built s.nextSeq := by
  obtain ⟨_, _, h⟩ := except_bind h
  obtain ⟨_, _, h⟩ := except_bind h
  obtain ⟨seed, checks, h⟩ := except_bind h
  obtain ⟨surface, folds, h⟩ := except_bind h
  cases h
  have built := built_foldLog (counted_openingLog (counted_checkSeed checks)) .empty folds
  rwa [Nat.zero_add] at built

def BuiltStore (st : SessionStore σ) : Prop := ∀ s ∈ st.sessions, s.surface.Built s.nextSeq

section
variable {st st' : SessionStore σ} (inv : BuiltStore st)
include inv

theorem built_same (same : st'.sessions = st.sessions) : BuiltStore st' := fun s member => inv s (same ▸ member)

theorem built_set {h : Nat} {s : Session} (set : st'.sessions = st.sessions.set h s) (built : s.surface.Built s.nextSeq) :
    BuiltStore st' := by
  intro a member
  rw [set] at member
  rcases List.mem_or_eq_of_mem_set member with old | rfl
  · exact inv a old
  · exact built

theorem built_concat {s : Session} (added : st'.sessions = st.sessions ++ [s]) (built : s.surface.Built s.nextSeq) :
    BuiltStore st' := by
  intro a member
  rw [added] at member
  rcases List.mem_append.mp member with old | new
  · exact inv a old
  · exact List.mem_singleton.mp new ▸ built

/-- An append draws a number, and may have folded its event, whether or not it is accepted. -/
theorem append_built {h : Nat} {s : Session} {type : String} {data : Json} {now : Int} {refuses : Option String}
    (object : st.sessions[h]? = some s) : BuiltStore (st.append h s type data now refuses).store := by
  have built := inv s (List.mem_of_getElem? object)
  have drawn : BuiltStore (st.set h (numbered s)) := built_set inv rfl built.skip
  unfold append
  dsimp only
  split
  case isFalse => exact built_set inv rfl (built.apply _)
  case isTrue =>
    unfold publish
    split
    case h_1 => exact drawn
    case h_2 =>
      dsimp only
      split
      case h_1 => exact drawn
      case h_2 plan _ =>
        have folded : BuiltStore ((st.set h (numbered s)).set h
            { numbered s with surface := (numbered s).surface.apply s.nextSeq plan }) := built_set drawn rfl (built.apply plan)
        have driven {visit : ProjectionCell σ → ProjectionCell σ × Option String} {d : SessionStore σ} {threw : Option String}
            (visited : visitCells _ visit = (d, threw)) : BuiltStore d :=
          built_same folded (by rw [(visitCells_rest visited).1])
        split
        case h_1 visited => exact driven visited
        case h_2 visited =>
          split
          case isTrue => split <;> exact driven visited
          case isFalse => exact driven visited

theorem create_built (id : SessionId) (options : CreateOptions) (now : Int) :
    BuiltStore (st.create id options now).store := by
  unfold create
  split
  case h_1 => exact inv
  case h_2 s prepared =>
    have entered : BuiltStore ((st.addSession s).enter st.sessions.length s).store :=
      built_concat inv (enter_same _ _ s).1 (prepared_built prepared)
    dsimp only
    split
    case isTrue => exact entered
    case isFalse => exact built_same entered (announce_same _ s).1

theorem run_built {o : SessionOp σ} {d : Done σ} (hx : st.run o = some d) : BuiltStore d.store := by
  cases o with
  | append h type data now refuses =>
      obtain ⟨s, object, rfl⟩ := Option.map_eq_some_iff.mp hx
      exact append_built inv object
  | create id options now =>
      obtain rfl := of_alive hx
      exact create_built inv id options now
  | prepare id options now =>
      obtain rfl := of_alive hx
      unfold prepare
      split
      case h_1 => exact inv
      case h_2 s prepared => exact built_concat inv rfl (prepared_built prepared)
  | enter h =>
      obtain ⟨_, hx⟩ := Option.ite_none_right_eq_some.mp hx
      obtain ⟨s, object, rfl⟩ := Option.map_eq_some_iff.mp hx
      exact built_same inv (enter_same st h s).1
  | announce h =>
      obtain ⟨_, hx⟩ := Option.ite_none_right_eq_some.mp hx
      obtain ⟨s, object, rfl⟩ := Option.map_eq_some_iff.mp hx
      exact built_same inv (announce_same st s).1
  | fork parent child cut now =>
      obtain rfl := of_alive hx
      unfold fork
      split
      case h_1 => exact inv
      case h_2 =>
        dsimp only
        split
        case isTrue => exact inv
        case isFalse => exact create_built inv child _ now
  | dispose id =>
      obtain rfl := of_alive hx
      unfold dispose
      split <;> exact built_same inv rfl
  | expire | flush id =>
      obtain rfl := of_alive hx
      exact built_same inv rfl
  | registerMessageProjection p =>
      obtain rfl := of_alive hx
      unfold registerMessageProjection
      split <;> exact built_same inv rfl
  | registerProjection spec =>
      obtain rfl := of_alive hx
      exact built_same inv rfl
  | dropMessageProjection type | dropProjection pid =>
      cases hx
      exact built_same inv rfl

theorem commit_built (f : SessionFrame) : BuiltStore (st.commit f) := by
  unfold commit
  split
  split
  case h_1 => exact inv
  case h_2 s object => exact built_set inv rfl (inv s (List.mem_of_getElem? object))

end

theorem step_built {c c' : SessionConfig σ} {a : Label (SessionOp σ)} (inv : BuiltStore c.state)
    (hs : (sessionMachine σ).next c a = some c') : BuiltStore c'.state := by
  rcases StackMachine.next_cases hs with ⟨f, rest, s', fs, rfl, hst, hx, rfl⟩ |
    ⟨f, rest, s', rfl, hst, hx, rfl⟩ | ⟨o, s', fs, rfl, _, hx, rfl⟩
  · cases hx
    exact commit_built inv f
  · cases hx
  · obtain ⟨d, hrun, hd⟩ := Option.map_eq_some_iff.mp hx
    cases hd
    exact run_built inv hrun

theorem built_reached {c : SessionConfig σ} (h : (sessionMachine σ).system.Reached (fun _ _ => True) c) :
    BuiltStore c.state := by
  refine h.invariant (I := fun c => BuiltStore c.state) ?_ fun _ _ _ _ inv step _ => step_built inv step
  intro c opens s member
  rw [opens.1] at member
  cases member

end

/-- What a splice makes of a surface. -/
structure Surface.Spliced (s : Surface) (start stop seq : Nat) (msg : Option Message) (s' : Surface) : Prop where
  even : s'.Even
  nodes : s'.nodes = spliced start stop (msg.toList.map fun m => (m, seq)) s.nodes
  generation : s'.generation ≠ s.generation ↔ s'.nodes ≠ s.nodes

/-- Events build every surface of a session. One that they build has a number for each message, all different and past,
and a splice in place makes of it what the splice of its nodes says. -/
theorem replace_splices {σ : Type} : (∀ c : SessionConfig σ, (sessionMachine σ).system.Reached (fun _ _ => True) c →
      ∀ s ∈ c.state.sessions, s.surface.Built s.nextSeq) ∧
    ∀ (s : Surface) (next : Nat), s.Built next → Numbered s next ∧ ∀ moved start stop msg,
      s.Spliced start stop next msg (s.replaceInPlace moved start stop next msg) := by
  refine ⟨fun c reached => built_reached reached, fun s next built => ?_⟩
  have num := built.numbered
  refine ⟨num, fun moved start stop msg => ?_⟩
  rw [Surface.replaceInPlace_eq num.even]
  have new : next ∉ s.sourceSeqs := fun old => Nat.lt_irrefl next (num.past next old)
  exact ⟨even_apply num.even next (.replace start stop msg), Surface.nodes_replace, Surface.generation_changed new⟩

def emptyMessage (id : String) : Message := { id, content := .null }

/-- A span is replaced at the front, so the numbers are out of order, and another is cut out. -/
theorem replace_splices_again : ∃ s : Surface, s.sourceSeqs = [3, 2] ∧ Numbered s 5 ∧ ∀ moved start stop msg,
    s.Spliced start stop 5 msg (s.replaceInPlace moved start stop 5 msg) := by
  have built := ((((Surface.Built.empty.push (emptyMessage "m0")).push (emptyMessage "m1")).push (emptyMessage "m2")).replace (fun _ m => m)
    0 1 (some (emptyMessage "r"))).replace (fun _ m => m) 1 2 none
  refine ⟨_, ?_, (replace_splices (σ := Unit)).2 _ _ built⟩
  decide +kernel

end Araya.Sessions
