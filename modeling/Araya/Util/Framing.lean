import Mathlib.Data.List.Basic

/-!
Items read off a stream that arrives in chunks. Whether the first item is complete, or its bytes are refused, is settled by
a beginning of the stream and not changed by what comes behind it. A reader that drops what it has collected of a chunk
when it meets refused bytes loses the items that stand before them in the chunk.
-/

namespace Araya

universe u v w

structure Framing (β : Type u) (μ : Type v) (ε : Type w) where
  /-- The first item and what is left, or nothing while more is needed. -/
  next : List β → Except ε (Option (μ × List β))
  shorter : ∀ {s rest : List β} {m : μ}, next s = .ok (some (m, rest)) → rest.length < s.length
  item : ∀ {s rest : List β} {m : μ}, next s = .ok (some (m, rest)) → ∀ more, next (s ++ more) = .ok (some (m, rest ++ more))
  refused : ∀ {s : List β} {e : ε}, next s = .error e → ∀ more, next (s ++ more) = .error e

namespace Framing
variable {β : Type u} {μ : Type v} {ε : Type w} (f : Framing β μ ε)

/-- All items of a stream up to the first refused bytes, and these or what is left. -/
def read (s : List β) : List μ × Except ε (List β) :=
  match _ : f.next s with
  | .error e => ([], .error e)
  | .ok none => ([], .ok s)
  | .ok (some (m, rest)) => (m :: (read rest).1, (read rest).2)
termination_by s.length
decreasing_by all_goals exact f.shorter ‹_›

/-- The items of a buffer, if none of its bytes are refused. -/
def collect (s : List β) : Except ε (List μ × List β) := (f.read s).2.map ((f.read s).1, ·)

/-- What is delivered of the chunks up to an error, and the error. -/
def feed (buffer : List β) : List (List β) → List μ × Option ε
  | [] => ([], none)
  | chunk :: chunks =>
    match f.collect (buffer ++ chunk) with
    | .error e => ([], some e)
    | .ok (ms, left) => (ms ++ (feed left chunks).1, (feed left chunks).2)

variable {f} {s rest buffer left : List β} {m : μ} {ms : List μ} {e : ε} {chunks : List (List β)}

theorem read_error (failed : f.next s = .error e) : f.read s = ([], .error e) := by
  rw [read]
  split
  · rename_i other
    cases failed.symm.trans other
    rfl
  · rename_i other
    cases failed.symm.trans other
  · rename_i other
    cases failed.symm.trans other

theorem read_wait (waits : f.next s = .ok none) : f.read s = ([], .ok s) := by
  rw [read]
  split
  · rename_i other
    cases waits.symm.trans other
  · rfl
  · rename_i other
    cases waits.symm.trans other

theorem read_item (read_ : f.next s = .ok (some (m, rest))) : f.read s = (m :: (f.read rest).1, (f.read rest).2) := by
  rw [read]
  split
  · rename_i other
    cases read_.symm.trans other
  · rename_i other
    cases read_.symm.trans other
  · rename_i other
    cases read_.symm.trans other
    rfl

/-- Reading goes on in what is left. -/
theorem read_append (parts : f.read s = (ms, .ok left)) : f.next left = .ok none ∧
    ∀ more, f.read (s ++ more) = (ms ++ (f.read (left ++ more)).1, (f.read (left ++ more)).2) := by
  induction size : s.length using Nat.strongRecOn generalizing s ms with
  | _ n ih =>
      subst size
      cases first : f.next s with
      | error e =>
          rw [read_error first] at parts
          cases parts
      | ok found =>
          cases found with
          | none =>
              rw [read_wait first] at parts
              cases parts
              exact ⟨first, fun more => rfl⟩
          | some item =>
              obtain ⟨m, rest⟩ := item
              rw [read_item first] at parts
              obtain ⟨rfl, same⟩ := Prod.mk.inj parts
              obtain ⟨waits, later⟩ := ih rest.length (f.shorter first) (Prod.ext rfl same) rfl
              refine ⟨waits, fun more => ?_⟩
              rw [read_item (f.item first more), later more]
              rfl

/-- Refused bytes stay refused. -/
theorem read_refused (parts : f.read s = (ms, .error e)) (more : List β) : f.read (s ++ more) = (ms, .error e) := by
  induction size : s.length using Nat.strongRecOn generalizing s ms with
  | _ n ih =>
      subst size
      cases first : f.next s with
      | error e' =>
          rw [read_error (f.refused first more), ← read_error first, parts]
      | ok found =>
          cases found with
          | none =>
              rw [read_wait first] at parts
              cases parts
          | some item =>
              obtain ⟨m, rest⟩ := item
              rw [read_item first] at parts
              obtain ⟨rfl, same⟩ := Prod.mk.inj parts
              rw [read_item (f.item first more), ih rest.length (f.shorter first) (Prod.ext rfl same) rfl]

theorem collect_ok (parts : f.read s = (ms, .ok left)) : f.collect s = .ok (ms, left) := by
  rw [collect, parts]
  rfl

theorem collect_error (parts : f.read s = (ms, .error e)) : f.collect s = .error e := by
  rw [collect, parts]
  rfl

/-- Where no bytes are refused, the chunks do not matter. -/
theorem feed_whole (waits : f.next buffer = .ok none) (parts : f.read (buffer ++ chunks.flatten) = (ms, .ok left)) :
    f.feed buffer chunks = (ms, none) := by
  induction chunks generalizing buffer ms with
  | nil =>
      rw [List.flatten_nil, List.append_nil, read_wait waits] at parts
      cases parts
      rfl
  | cons chunk chunks ih =>
      rw [List.flatten_cons, ← List.append_assoc] at parts
      cases drained : (f.read (buffer ++ chunk)).2 with
      | error e =>
          have refused : f.read (buffer ++ chunk) = ((f.read (buffer ++ chunk)).1, .error e) := Prod.ext rfl drained
          cases (read_refused refused chunks.flatten).symm.trans parts
      | ok back =>
          have front : f.read (buffer ++ chunk) = ((f.read (buffer ++ chunk)).1, .ok back) := Prod.ext rfl drained
          obtain ⟨waits', later⟩ := read_append front
          rw [later] at parts
          obtain ⟨rfl, same⟩ := Prod.mk.inj parts
          rw [feed, collect_ok front]
          dsimp only
          rw [ih waits' (Prod.ext rfl same)]

/-- All items before the first refused bytes are delivered just where a chunk ends behind them and before these show. -/
theorem feed_all_iff (waits : f.next buffer = .ok none) : (f.feed buffer chunks).1 = (f.read (buffer ++ chunks.flatten)).1 ↔
    ((∃ e, (f.read (buffer ++ chunks.flatten)).2 = .error e) →
      ∃ i left, f.read (buffer ++ (chunks.take i).flatten) = ((f.read (buffer ++ chunks.flatten)).1, .ok left)) := by
  induction chunks generalizing buffer with
  | nil =>
      rw [List.flatten_nil, List.append_nil, read_wait waits]
      refine iff_of_true rfl fun ⟨e, failed⟩ => ?_
      cases failed
  | cons chunk chunks ih =>
      have start : f.read (buffer ++ ((chunk :: chunks).take 0).flatten) = ([], .ok buffer) := by
        rw [List.take_zero, List.flatten_nil, List.append_nil, read_wait waits]
      have step (i : Nat) : buffer ++ ((chunk :: chunks).take (i + 1)).flatten =
          buffer ++ chunk ++ (chunks.take i).flatten := by
        rw [List.take_succ_cons, List.flatten_cons, List.append_assoc]
      have whole : buffer ++ (chunk :: chunks).flatten = buffer ++ chunk ++ chunks.flatten := by
        rw [List.flatten_cons, List.append_assoc]
      rw [whole]
      cases drained : (f.read (buffer ++ chunk)).2 with
      | error e =>
          have parts : f.read (buffer ++ chunk) = ((f.read (buffer ++ chunk)).1, .error e) := Prod.ext rfl drained
          rw [feed, collect_error parts, read_refused parts]
          refine ⟨fun none _ => ⟨0, buffer, by rw [start, ← none]⟩, fun early => ?_⟩
          obtain ⟨i, left, ended⟩ := early ⟨e, rfl⟩
          cases i with
          | zero => exact (Prod.mk.inj (start.symm.trans ended)).1
          | succ i =>
              rw [step, read_refused parts] at ended
              cases (Prod.mk.inj ended).2
      | ok left =>
          have parts : f.read (buffer ++ chunk) = ((f.read (buffer ++ chunk)).1, .ok left) := Prod.ext rfl drained
          obtain ⟨waits', later⟩ := read_append parts
          rw [feed, collect_ok parts, later]
          dsimp only
          rw [List.append_cancel_left_eq, ih waits']
          refine imp_congr_right fun _ => ⟨fun ⟨i, left', ended⟩ => ⟨i + 1, left', ?_⟩, fun ⟨i, left', ended⟩ => ?_⟩
          · rw [step, later, ended]
          · cases i with
            | zero =>
                obtain ⟨none, -⟩ := Prod.mk.inj (start.symm.trans ended)
                refine ⟨0, left, ?_⟩
                rw [List.take_zero, List.flatten_nil, List.append_nil, read_wait waits',
                  (List.append_eq_nil_iff.mp none.symm).2]
            | succ i =>
                rw [step, later] at ended
                obtain ⟨same, ok⟩ := Prod.mk.inj ended
                exact ⟨i, left', Prod.ext (List.append_cancel_left same) ok⟩

end Framing
end Araya
