import Araya.App.Metrics
import Araya.Util.Lists

/-!
The lines of the feed. A text is cut at its newlines, its words are put on lines while they fit, and a word that is wider
than a line is cut between code points.
-/

namespace Araya.App
open Llm (Bytes newline space)

def breaks (b : UInt8) : Bool := b == space || b == tab || b == newline

/-- `lines` are finished, `current` is not. -/
structure Wrapping where
  lines : List Bytes := []
  current : Bytes := []
  currentWidth : Nat := 0

def Wrapping.flush (w : Wrapping) : Wrapping := { lines := w.lines ++ [w.current] }

theorem split_length {word : Bytes} {width : Nat} (wide : width < displayWidth word) :
    (word.drop (utf8PrefixBytes word width)).length < word.length := by
  cases word with
  | nil =>
      rw [displayWidth] at wide
      cases wide
  | cons b rest =>
      have positive : 0 < utf8PrefixBytes (b :: rest) width := by
        unfold utf8PrefixBytes
        split
        · exact Nat.one_pos
        · rename_i some
          exact Nat.pos_of_ne_zero fun zero => some ⟨zero, List.cons_ne_nil b rest⟩
      rw [List.length_drop, List.length_cons]
      omega

/-- The pieces of a word that is too wide, and what is left of it. -/
def hardSplit (width : Nat) (word : Bytes) : List Bytes × Bytes :=
  if _ : width < displayWidth word then
    Prod.map (word.take (utf8PrefixBytes word width) :: ·) id (hardSplit width (word.drop (utf8PrefixBytes word width)))
  else ([], word)
termination_by word.length
decreasing_by exact split_length ‹_›

namespace Wrapping

/-- The column of the space before another word. -/
def extra (w : Wrapping) : Nat := if w.current.isEmpty then 0 else 1

def ended (w : Wrapping) : Wrapping := if w.current.isEmpty then w else w.flush

def addWord (width : Nat) (w : Wrapping) (word : Bytes) : Wrapping :=
  if w.currentWidth + w.extra + displayWidth word ≤ width then
    if w.current.isEmpty then { w with current := word, currentWidth := w.currentWidth + displayWidth word }
    else { w with current := w.current ++ space :: word, currentWidth := w.currentWidth + 1 + displayWidth word }
  else
    { lines := w.ended.lines ++ (hardSplit width word).1
      current := (hardSplit width word).2
      currentWidth := displayWidth (hardSplit width word).2 }

/-- The loop over the text. -/
def wrapFrom (width : Nat) : Bytes → Wrapping → Wrapping
  | [], w => w
  | b :: text, w =>
    if b = newline then wrapFrom width text w.flush
    else if b = space ∨ b = tab then wrapFrom width text w
    else
      wrapFrom width (text.dropWhile (!breaks ·)) (w.addWord width (b :: text.takeWhile (!breaks ·)))
termination_by text => text.length
decreasing_by
  all_goals simp only [List.length_cons]
  · exact Nat.lt_succ_self _
  · exact Nat.lt_succ_self _
  · exact Nat.lt_succ_of_le (List.dropWhile_suffix _).length_le

def finish (w : Wrapping) : List Bytes := if !w.current.isEmpty || w.lines.isEmpty then w.flush.lines else w.lines

end Wrapping

def wrapLines (text : Bytes) (width : Nat) : List Bytes :=
  (Wrapping.wrapFrom (if width = 0 then 1 else width) text {}).finish

/-- A line fits, or it is one code point that no line of the width holds. -/
def Fits (width : Nat) (line : Bytes) : Prop :=
  displayWidth line ≤ width ∨ ∃ c, codepoints line = [c] ∧ width < codepointWidth c.value

/-- What is seen of a text. -/
def ink (text : Bytes) : Bytes := text.filter (!breaks ·)

def inked (lines : List Bytes) : Bytes := lines.flatten.filter (· != space)

/-! Code points of words and lines -/

def Codepoint.inked (c : Codepoint) : Bool := c.bytes.any (!breaks ·)

theorem breaks_ascii {b : UInt8} (here : breaks b = true) : b < 0x80 := by
  simp only [breaks, Bool.or_eq_true, beq_iff_eq] at here
  obtain (rfl | rfl) | rfl := here <;> decide

theorem continuation_large {b : UInt8} (cont : Continuation b) : ¬ b < 0x80 := by
  have all : ∀ n : Fin 256, ¬ Continuation (UInt8.ofNat n) ∨ ¬ UInt8.ofNat n < 0x80 := by decide +kernel
  have byte := all ⟨b.toNat, b.toNat_lt⟩
  rw [UInt8.ofNat_toNat] at byte
  exact byte.resolve_left fun other => other cont

theorem breaks_stop {b : UInt8} (here : breaks b = true) : ¬ Continuation b :=
  fun cont => continuation_large cont (breaks_ascii here)

/-- A code point is one byte, or has no break in it. -/
def Solid (c : Codepoint) : Prop := c.bytes ≠ [] ∧ ((∃ b, c.bytes = [b]) ∨ ∀ b ∈ c.bytes, breaks b = false)

theorem codepoints_solid {text : Bytes} {c : Codepoint} (member : c ∈ codepoints text) : Solid c := by
  fun_induction codepoints text with
  | case1 => cases member
  | case2 first rest ih =>
      obtain rfl | later := List.mem_cons.mp member
      · refine ⟨List.cons_ne_nil _ _, ?_⟩
        obtain single | ⟨need, bits, cp, found, followed, fine, large, decoded⟩ := utf8Decode_cases first rest
        · exact .inl ⟨first, by rw [single]; rfl⟩
        · refine .inr fun b inside => Bool.eq_false_iff.mpr fun here => ?_
          obtain rfl | cont := List.mem_cons.mp inside
          · exact large (breaks_ascii here)
          · exact breaks_stop here ((utf8Decode_bytes first rest).2 b cont)
      · exact ih later

theorem plain_inked {c : Codepoint} (some : c.bytes ≠ []) (plain : ∀ b ∈ c.bytes, breaks b = false) : c.inked = true := by
  obtain ⟨b, rest, bytes⟩ := List.exists_cons_of_ne_nil some
  rw [Codepoint.inked, bytes, List.any_cons, plain b (bytes ▸ List.mem_cons_self)]
  rfl

theorem inked_bytes {cs : List Codepoint} (solid : ∀ c ∈ cs, Solid c) :
    (cs.filter Codepoint.inked).flatMap Codepoint.bytes = ink (cs.flatMap Codepoint.bytes) := by
  induction cs with
  | nil => rfl
  | cons c cs ih =>
      have later := ih fun c' member => solid c' (List.mem_cons_of_mem c member)
      rw [List.flatMap_cons, ink, List.filter_append, ← ink, ← ink, ← later]
      obtain ⟨some, ⟨b, single⟩ | plain⟩ := solid c List.mem_cons_self
      · cases here : breaks b with
        | true =>
            rw [List.filter_cons_of_neg (by simp [Codepoint.inked, single, here]), ink, single,
              List.filter_cons_of_neg (by simp [here])]
            rfl
        | false =>
            rw [List.filter_cons_of_pos (by simp [Codepoint.inked, single, here]), List.flatMap_cons, ink, single,
              List.filter_cons_of_pos (by simp [here])]
            rfl
      · have whole : ink c.bytes = c.bytes := List.filter_eq_self.mpr fun b member => by rw [plain b member]; rfl
        rw [List.filter_cons_of_pos (plain_inked some plain), List.flatMap_cons, whole]

theorem codepoints_append_break {word rest : Bytes} (next : ∀ b ∈ rest.head?, breaks b = true) :
    codepoints (word ++ rest) = codepoints word ++ codepoints rest := by
  cases rest with
  | nil => rw [List.append_nil, codepoints, List.append_nil]
  | cons b rest => exact codepoints_stop word rest (breaks_stop (next b rfl))

theorem word_inked {word : Bytes} (plain : ∀ b ∈ word, breaks b = false) :
    (codepoints word).filter Codepoint.inked = codepoints word := by
  refine List.filter_eq_self.mpr fun c member => plain_inked (codepoints_solid member).1 fun b inside => plain b ?_
  rw [← codepoints_bytes word]
  exact List.mem_flatMap.mpr ⟨c, member, inside⟩

/-- A hard split cuts between code points, and what it cuts off fits. -/
theorem hardSplit_spec (width : Nat) (word : Bytes) :
    (hardSplit width word).1.flatMap codepoints ++ codepoints (hardSplit width word).2 = codepoints word ∧
      (∀ piece ∈ (hardSplit width word).1, Fits width piece) ∧ displayWidth (hardSplit width word).2 ≤ width := by
  fun_induction hardSplit width word with
  | case1 word wide ih =>
      have solid : word ≠ [] := by
        rintro rfl
        rw [displayWidth] at wide
        cases wide
      obtain ⟨front, back, parts, stop, narrow⟩ := utf8PrefixBytes_spec solid width
      obtain ⟨left, right⟩ := codepoints_split parts
      have whole : word = front.flatMap Codepoint.bytes ++ back.flatMap Codepoint.bytes := by
        rw [← List.flatMap_append, ← parts, codepoints_bytes]
      have before : word.take (utf8PrefixBytes word width) = front.flatMap Codepoint.bytes := by
        rw [stop]
        exact (congrArg _ whole).trans List.take_left
      have after : word.drop (utf8PrefixBytes word width) = back.flatMap Codepoint.bytes := by
        rw [stop]
        exact (congrArg _ whole).trans List.drop_left
      obtain ⟨same, pieces, rest⟩ := ih
      refine ⟨?_, ?_, rest⟩
      · rw [Prod.map_fst, Prod.map_snd, List.flatMap_cons, List.append_assoc]
        refine (congrArg (_ ++ ·) same).trans ?_
        rw [before, after, left, right, parts]
      · intro piece member
        obtain rfl | later := List.mem_cons.mp member
        · rw [before, Fits, displayWidth_codepoints, left]
          exact narrow
        · exact pieces piece later
  | case2 word narrow =>
      exact ⟨rfl, fun piece member => absurd member List.not_mem_nil, Nat.le_of_not_lt narrow⟩

theorem hardSplit_flatten (width : Nat) (word : Bytes) :
    (hardSplit width word).1.flatten ++ (hardSplit width word).2 = word := by
  fun_induction hardSplit width word with
  | case1 word wide ih =>
      rw [Prod.map_fst, Prod.map_snd, List.flatten_cons, List.append_assoc]
      exact (congrArg (_ ++ ·) ih).trans (List.take_append_drop _ word)
  | case2 word narrow => rfl

namespace Wrapping

/-- What is kept of a wrapping: its current line is as wide as it says and fits, so do the others, and no line has a tab or
a newline. -/
structure Sound (width : Nat) (w : Wrapping) : Prop where
  measured : w.currentWidth = displayWidth w.current
  narrow : displayWidth w.current ≤ width
  fits : ∀ line ∈ w.lines, Fits width line
  plain : ∀ line ∈ w.current :: w.lines, ∀ b ∈ line, b ≠ tab ∧ b ≠ newline

/-- The code points on the lines, without the spaces. -/
def carried (w : Wrapping) : List Codepoint := (w.lines.flatMap codepoints ++ codepoints w.current).filter Codepoint.inked

theorem carried_empty : carried {} = [] := by
  change ([] ++ codepoints []).filter Codepoint.inked = []
  rw [codepoints]
  rfl

variable {width : Nat} {w : Wrapping}

theorem displayWidth_nil : displayWidth [] = 0 := by rw [displayWidth]

theorem flush_sound (sound : w.Sound width) : w.flush.Sound width where
  measured := displayWidth_nil.symm
  narrow := displayWidth_nil.trans_le (Nat.zero_le width)
  fits line member := by
    obtain old | new := List.mem_append.mp member
    · exact sound.fits line old
    · rw [List.mem_singleton.mp new]
      exact .inl sound.narrow
  plain line member := by
    obtain rfl | old := List.mem_cons.mp member
    · exact fun b inside => absurd inside List.not_mem_nil
    · obtain old | new := List.mem_append.mp old
      · exact sound.plain line (List.mem_cons_of_mem _ old)
      · rw [List.mem_singleton.mp new]
        exact sound.plain _ List.mem_cons_self

theorem flush_carried : w.flush.carried = w.carried := by
  simp only [carried, flush, List.flatMap_append, List.flatMap_singleton, codepoints, List.append_nil]

theorem displayWidth_space (line word : Bytes) :
    displayWidth (line ++ space :: word) = displayWidth line + 1 + displayWidth word := by
  have one : codepointWidth space.toNat = 1 := by decide
  rw [displayWidth_codepoints, codepoints_stop line word (breaks_stop (b := space) rfl), codepoints_ascii (by decide),
    columns_append, columns, one, displayWidth_codepoints, displayWidth_codepoints, Nat.add_assoc]

theorem addWord_sound (sound : w.Sound width) {word : Bytes} (plain : ∀ b ∈ word, breaks b = false) :
    (w.addWord width word).Sound width := by
  have clean : ∀ b ∈ word, b ≠ tab ∧ b ≠ newline := by
    intro b member
    have := plain b member
    simp only [breaks, Bool.or_eq_false_iff, beq_eq_false_iff_ne] at this
    exact ⟨this.1.2, this.2⟩
  unfold addWord
  split
  · rename_i room
    split
    · rename_i empty
      have none := List.isEmpty_iff.mp empty
      have zero : w.currentWidth = 0 := by rw [sound.measured, none, displayWidth_nil]
      rw [zero, extra, if_pos empty, Nat.add_zero, Nat.zero_add] at room
      refine ⟨by rw [zero, Nat.zero_add], room, sound.fits, fun line member => ?_⟩
      obtain rfl | old := List.mem_cons.mp member
      · exact clean
      · exact sound.plain line (List.mem_cons_of_mem _ old)
    · rename_i some
      rw [extra, if_neg some] at room
      refine ⟨?_, ?_, sound.fits, fun line member => ?_⟩
      · rw [displayWidth_space, sound.measured]
      · rwa [displayWidth_space, ← sound.measured]
      · obtain rfl | old := List.mem_cons.mp member
        · intro b inside
          obtain before | rest := List.mem_append.mp inside
          · exact sound.plain _ List.mem_cons_self b before
          · obtain rfl | after := List.mem_cons.mp rest
            · exact ⟨by decide, by decide⟩
            · exact clean b after
        · exact sound.plain line (List.mem_cons_of_mem _ old)
  · obtain ⟨-, pieces, narrow⟩ := hardSplit_spec width word
    have base : w.ended.Sound width := by
      unfold ended
      split
      · exact sound
      · exact flush_sound sound
    have inside : ∀ line ∈ (hardSplit width word).2 :: (hardSplit width word).1, ∀ b ∈ line, b ∈ word := by
      intro line member b here
      rw [← hardSplit_flatten width word]
      obtain rfl | piece := List.mem_cons.mp member
      · exact List.mem_append_right _ here
      · exact List.mem_append_left _ (List.mem_flatten.mpr ⟨line, piece, here⟩)
    refine ⟨rfl, narrow, fun line member => ?_, fun line member => ?_⟩
    · exact (List.mem_append.mp member).elim (base.fits line) (pieces line)
    · obtain rfl | old := List.mem_cons.mp member
      · exact fun b here => clean b (inside _ List.mem_cons_self b here)
      · obtain old | new := List.mem_append.mp old
        · exact base.plain line (List.mem_cons_of_mem _ old)
        · exact fun b here => clean b (inside line (List.mem_cons_of_mem _ new) b here)

theorem addWord_carried {word : Bytes} (plain : ∀ b ∈ word, breaks b = false) :
    (w.addWord width word).carried = w.carried ++ codepoints word := by
  have seen := word_inked plain
  unfold addWord
  split
  · split
    · rename_i empty
      rw [carried, carried, List.isEmpty_iff.mp empty, codepoints, List.append_nil, List.filter_append, seen]
    · have gap : codepoints (w.current ++ space :: word) =
          codepoints w.current ++ ⟨[space], space.toNat⟩ :: codepoints word := by
        rw [codepoints_stop _ _ (breaks_stop (b := space) rfl), codepoints_ascii (by decide)]
      rw [carried, carried, gap, ← List.append_assoc, List.filter_append, List.filter_cons_of_neg (by decide), seen]
  · have base : w.ended.lines.flatMap codepoints = w.lines.flatMap codepoints ++ codepoints w.current := by
      unfold ended
      split
      · rename_i empty
        rw [List.isEmpty_iff.mp empty, codepoints, List.append_nil]
      · rw [flush, List.flatMap_append, List.flatMap_singleton]
    rw [carried, carried, List.flatMap_append, base, List.append_assoc, (hardSplit_spec width word).1, List.filter_append,
      seen]

theorem word_plain {b : UInt8} (line : ¬ b = newline) (blank : ¬ (b = space ∨ b = tab)) (text : Bytes) :
    ∀ b' ∈ b :: text.takeWhile (!breaks ·), breaks b' = false := by
  intro b' member
  obtain rfl | later := List.mem_cons.mp member
  · simp only [breaks, Bool.or_eq_false_iff, beq_eq_false_iff_ne]
    exact ⟨not_or.mp blank, line⟩
  · simpa using List.all_eq_true.mp List.all_takeWhile b' later

theorem rest_break (text : Bytes) : ∀ b ∈ (text.dropWhile (!breaks ·)).head?, breaks b = true := by
  intro b first
  have := List.head?_dropWhile_not (!breaks ·) text
  rw [first] at this
  simpa using this

theorem wrapFrom_carried (text : Bytes) :
    (wrapFrom width text w).carried = w.carried ++ (codepoints text).filter Codepoint.inked := by
  fun_induction wrapFrom width text w with
  | case1 w => rw [codepoints, List.filter_nil, List.append_nil]
  | case2 text w ih =>
      rw [ih, flush_carried, codepoints_ascii (by decide), List.filter_cons_of_neg (by decide)]
  | case3 b text w line blank ih =>
      have silent : ¬ Codepoint.inked ⟨[b], b.toNat⟩ = true := by obtain rfl | rfl := blank <;> decide
      have plain : b < 0x80 := by obtain rfl | rfl := blank <;> decide
      rw [ih, codepoints_ascii plain, List.filter_cons_of_neg silent]
  | case4 b text w line word ih =>
      have plain := word_plain line word text
      have whole : b :: text = b :: text.takeWhile (!breaks ·) ++ text.dropWhile (!breaks ·) :=
        congrArg (b :: ·) List.takeWhile_append_dropWhile.symm
      rw [ih, addWord_carried plain, whole, codepoints_append_break (rest_break text), List.filter_append, word_inked plain,
        List.append_assoc]

theorem wrapFrom_sound (text : Bytes) (sound : w.Sound width) : (wrapFrom width text w).Sound width := by
  fun_induction wrapFrom width text w with
  | case1 w => exact sound
  | case2 text w ih => exact ih (flush_sound sound)
  | case3 b text w line blank ih => exact ih sound
  | case4 b text w line word ih => exact ih (addWord_sound sound (word_plain line word text))

/-- Lines are only added. -/
theorem ended_lines : ∃ later, w.ended.lines = w.lines ++ later := by
  unfold ended
  split
  · exact ⟨[], (List.append_nil _).symm⟩
  · exact ⟨[w.current], rfl⟩

theorem addWord_lines (word : Bytes) : ∃ later, (w.addWord width word).lines = w.lines ++ later := by
  unfold addWord
  split
  · refine ⟨[], ?_⟩
    rw [List.append_nil]
    split <;> rfl
  · obtain ⟨later, same⟩ := w.ended_lines
    exact ⟨later ++ (hardSplit width word).1, by dsimp only; rw [same, List.append_assoc]⟩

theorem wrapFrom_lines (text : Bytes) : ∃ later, (wrapFrom width text w).lines = w.lines ++ later := by
  fun_induction wrapFrom width text w with
  | case1 w => exact ⟨[], (List.append_nil _).symm⟩
  | case2 text w ih =>
      obtain ⟨later, same⟩ := ih
      exact ⟨w.current :: later, by rw [same, flush, List.append_assoc]; rfl⟩
  | case3 b text w line blank ih => exact ih
  | case4 b text w line word ih =>
      obtain ⟨later, same⟩ := ih
      obtain ⟨first, begun⟩ := @addWord_lines width w (b :: text.takeWhile (!breaks ·))
      exact ⟨first ++ later, by rw [same, begun, List.append_assoc]⟩

theorem takeWhile_newline (text more : Bytes) :
    (text ++ newline :: more).takeWhile (!breaks ·) = text.takeWhile (!breaks ·) ∧
      (text ++ newline :: more).dropWhile (!breaks ·) = text.dropWhile (!breaks ·) ++ newline :: more := by
  induction text with
  | nil => exact ⟨rfl, rfl⟩
  | cons b text ih =>
      rw [List.cons_append, List.takeWhile_cons, List.takeWhile_cons, List.dropWhile_cons, List.dropWhile_cons, ih.1, ih.2]
      refine ⟨rfl, ?_⟩
      split <;> rfl

theorem wrapFrom_newline (text more : Bytes) :
    wrapFrom width (text ++ newline :: more) w = wrapFrom width more (wrapFrom width text w).flush := by
  fun_induction wrapFrom width text w with
  | case1 w =>
      rw [List.nil_append, wrapFrom]
      rfl
  | case2 text w ih =>
      rw [List.cons_append, wrapFrom]
      exact ih
  | case3 b text w line blank ih =>
      rw [List.cons_append, wrapFrom, if_neg line, if_pos blank]
      exact ih
  | case4 b text w line word ih =>
      obtain ⟨front, back⟩ := takeWhile_newline text more
      rw [List.cons_append, wrapFrom, if_neg line, if_neg word, front, back]
      exact ih

theorem finish_lines : ∃ later, w.finish = w.lines ++ later ∧ later.flatMap codepoints = codepoints w.current ∧
    ∀ line ∈ later, line = w.current := by
  unfold finish
  split
  · exact ⟨[w.current], rfl, List.flatMap_singleton _ _, fun line => List.mem_singleton.mp⟩
  · rename_i done
    have empty : w.current = [] := by
      simp only [Bool.or_eq_true, Bool.not_eq_true', not_or, Bool.not_eq_false, List.isEmpty_iff] at done
      exact done.1
    exact ⟨[], (List.append_nil _).symm, by rw [empty, codepoints]; rfl, fun line member => absurd member List.not_mem_nil⟩

end Wrapping

/-! The lines of a text -/

/-- Where an element of a filtered concatenation stands. -/
theorem filter_flatMap_split {α β : Type} {f : α → List β} {p : β → Bool} {l : List α} {before after : List β} {x : β}
    (parts : (l.flatMap f).filter p = before ++ x :: after) : ∃ front a back u v, l = front ++ a :: back ∧
      f a = u ++ x :: v ∧ (front.flatMap f ++ u).filter p = before ∧ (v ++ back.flatMap f).filter p = after := by
  induction l generalizing before with
  | nil => cases List.append_eq_nil_iff.mp parts.symm |>.2
  | cons a l ih =>
      rw [List.flatMap_cons, List.filter_append] at parts
      obtain ⟨m, rfl, rest⟩ | ⟨m, here, rest⟩ := List.append_eq_append_iff.mp parts
      · obtain ⟨front, a', back, u, v, rfl, split, hb, ha⟩ := ih rest
        refine ⟨a :: front, a', back, u, v, rfl, split, ?_, ha⟩
        rw [List.flatMap_cons, List.append_assoc, List.filter_append, hb]
      · cases m with
        | nil =>
            rw [List.append_nil] at here
            obtain ⟨front, a', back, u, v, rfl, split, hb, ha⟩ := @ih [] rest.symm
            refine ⟨a :: front, a', back, u, v, rfl, split, ?_, ha⟩
            rw [List.flatMap_cons, List.append_assoc, List.filter_append, hb, here, List.append_nil]
        | cons y m =>
            obtain ⟨rfl, rfl⟩ := List.cons.inj rest
            obtain ⟨u, w, split, hu, hw⟩ := List.filter_eq_append_iff.mp here
            obtain ⟨s, v, rfl, skipped, seen, hv⟩ := List.filter_eq_cons_iff.mp hw
            refine ⟨[], a, l, u ++ s, v, rfl, by rw [split, List.append_assoc], ?_, ?_⟩
            · rw [List.flatMap_nil, List.nil_append, List.filter_append, hu, List.filter_eq_nil_iff.mpr skipped,
                List.append_nil]
            · rw [List.filter_append, hv]
              rfl

section
variable (text : Bytes) (width : Nat)

theorem wrapLines_carried : ((wrapLines text width).flatMap codepoints).filter Codepoint.inked =
    (codepoints text).filter Codepoint.inked := by
  obtain ⟨later, lines, last, -⟩ := (Wrapping.wrapFrom (if width = 0 then 1 else width) text {}).finish_lines
  rw [wrapLines, lines, List.flatMap_append, last]
  exact (Wrapping.wrapFrom_carried text).trans (congrArg (· ++ _) Wrapping.carried_empty)

theorem wrapLines_sound : ∀ line ∈ wrapLines text width,
    Fits (max width 1) line ∧ ∀ b ∈ line, b ≠ tab ∧ b ≠ newline := by
  have same : (if width = 0 then 1 else width) = max width 1 := by split <;> omega
  have empty : Wrapping.Sound (max width 1) {} :=
    ⟨Wrapping.displayWidth_nil.symm, Wrapping.displayWidth_nil.trans_le (Nat.zero_le _),
      fun line member => absurd member List.not_mem_nil, fun line member b inside => by
        rw [List.mem_singleton.mp member] at inside
        cases inside⟩
  have sound := Wrapping.wrapFrom_sound text empty
  rw [wrapLines, same]
  obtain ⟨later, lines, -, last⟩ := (Wrapping.wrapFrom (max width 1) text {}).finish_lines
  intro line member
  rw [lines] at member
  obtain old | new := List.mem_append.mp member
  · exact ⟨sound.fits line old, sound.plain line (List.mem_cons_of_mem _ old)⟩
  · rw [last line new]
    exact ⟨.inl sound.narrow, sound.plain _ List.mem_cons_self⟩

end

theorem inked_ink {lines : List Bytes} (plain : ∀ line ∈ lines, ∀ b ∈ line, b ≠ tab ∧ b ≠ newline) :
    inked lines = ink lines.flatten := by
  refine List.filter_congr fun b member => ?_
  obtain ⟨line, inside, here⟩ := List.mem_flatten.mp member
  obtain ⟨off, off'⟩ := plain line inside b here
  rw [breaks, beq_false_of_ne off, beq_false_of_ne off', Bool.or_false, Bool.or_false]
  rfl

theorem flatten_codepoints (lines : List Bytes) : (lines.flatMap codepoints).flatMap Codepoint.bytes = lines.flatten := by
  induction lines with
  | nil => rfl
  | cons line lines ih => rw [List.flatten_cons, List.flatMap_cons, List.flatMap_append, codepoints_bytes, ih]

theorem ink_codepoints (text : Bytes) : ((codepoints text).filter Codepoint.inked).flatMap Codepoint.bytes = ink text := by
  rw [inked_bytes fun c => codepoints_solid, codepoints_bytes]

/-- Parts of lines with the code points of a text show what is seen of it. -/
theorem inked_points {parts : List Bytes} {cs : List Codepoint} {text : Bytes}
    (plain : ∀ line ∈ parts, ∀ b ∈ line, b ≠ tab ∧ b ≠ newline) (solid : ∀ c ∈ cs, Solid c)
    (same : cs.flatMap Codepoint.bytes = parts.flatten)
    (seen : cs.filter Codepoint.inked = (codepoints text).filter Codepoint.inked) : inked parts = ink text := by
  rw [inked_ink plain, ← same, ← inked_bytes solid, seen, ink_codepoints]

theorem flatMap_solid {lines : List Bytes} {c : Codepoint} (member : c ∈ lines.flatMap codepoints) : Solid c := by
  obtain ⟨line, -, here⟩ := List.mem_flatMap.mp member
  exact codepoints_solid here

theorem wrapLines_ink (text : Bytes) (width : Nat) : inked (wrapLines text width) = ink text :=
  inked_points (fun line member => (wrapLines_sound text width line member).2) (fun _ => flatMap_solid)
    (flatten_codepoints _) (wrapLines_carried text width)

theorem char_inked {c : Char} (large : 0x80 ≤ c.val.toNat) :
    Codepoint.inked ⟨String.utf8EncodeChar c, c.val.toNat⟩ = true := by
  have read := codepoints_char large [] []
  obtain ⟨some, ⟨b, single⟩ | plain⟩ := codepoints_solid (read ▸ List.mem_append_right _ List.mem_cons_self)
  · have size := congrArg List.length single
    rw [String.length_utf8EncodeChar] at size
    have small : c.val.toNat ≤ 127 := Char.utf8Size_eq_one_iff.mp size
    omega
  · exact plain_inked some plain

/-- A character of several bytes is on one line, between what is seen before it and behind it. -/
theorem wrapLines_char {c : Char} (large : 0x80 ≤ c.val.toNat) (before after : Bytes) (width : Nat) :
    ∃ front u v back, wrapLines (before ++ (String.utf8EncodeChar c ++ after)) width =
      front ++ (u ++ (String.utf8EncodeChar c ++ v)) :: back ∧
        inked (front ++ [u]) = ink before ∧ inked (v :: back) = ink after := by
  have carried := wrapLines_carried (before ++ (String.utf8EncodeChar c ++ after)) width
  have sound := wrapLines_sound (before ++ (String.utf8EncodeChar c ++ after)) width
  rw [codepoints_char large, List.filter_append, List.filter_cons_of_pos (char_inked large)] at carried
  obtain ⟨front, line, back, us, vs, lines, split, hb, ha⟩ := filter_flatMap_split carried
  rw [lines] at sound ⊢
  have whole : line = us.flatMap Codepoint.bytes ++ (String.utf8EncodeChar c ++ vs.flatMap Codepoint.bytes) := by
    rw [← codepoints_bytes line, split, List.flatMap_append, List.flatMap_cons]
  have plain : ∀ b ∈ line, b ≠ tab ∧ b ≠ newline := (sound line (List.mem_append_right _ List.mem_cons_self)).2
  refine ⟨front, us.flatMap Codepoint.bytes, vs.flatMap Codepoint.bytes, back, by rw [whole], ?_, ?_⟩
  · refine inked_points ?_ ?_ ?_ hb
    · intro part member b here
      obtain old | new := List.mem_append.mp member
      · exact (sound part (List.mem_append_left _ old)).2 b here
      · rw [List.mem_singleton.mp new] at here
        exact plain b (whole ▸ List.mem_append_left _ here)
    · intro c' member
      obtain old | new := List.mem_append.mp member
      · exact flatMap_solid old
      · exact codepoints_solid (split ▸ List.mem_append_left _ new)
    · rw [List.flatMap_append, flatten_codepoints, List.flatten_append, List.flatten_singleton]
  · refine inked_points ?_ ?_ ?_ ha
    · intro part member b here
      obtain rfl | old := List.mem_cons.mp member
      · exact plain b (whole ▸ List.mem_append_right _ (List.mem_append_right _ here))
      · exact (sound part (List.mem_append_right _ (List.mem_cons_of_mem _ old))).2 b here
    · intro c' member
      obtain new | old := List.mem_append.mp member
      · exact codepoints_solid (split ▸ List.mem_append_right _ (List.mem_cons_of_mem _ new))
      · exact flatMap_solid old
    · rw [List.flatMap_append, flatten_codepoints, List.flatten_cons]

/-- No line has something of both sides of a newline. -/
theorem wrapLines_newline (before after : Bytes) (width : Nat) :
    ∃ front back, wrapLines (before ++ newline :: after) width = front ++ back ∧ inked front = ink before ∧
      inked back = ink after := by
  have sound := wrapLines_sound (before ++ newline :: after) width
  have carried := wrapLines_carried (before ++ newline :: after) width
  have parts : codepoints (before ++ newline :: after) =
      codepoints before ++ ⟨[newline], newline.toNat⟩ :: codepoints after := by
    rw [codepoints_stop _ _ (breaks_stop (b := newline) rfl), codepoints_ascii (by decide)]
  generalize narrow : (if width = 0 then 1 else width) = w at *
  obtain ⟨middle, added⟩ := @Wrapping.wrapFrom_lines w (Wrapping.wrapFrom w before {}).flush after
  obtain ⟨last, done, -, -⟩ := (Wrapping.wrapFrom w after (Wrapping.wrapFrom w before {}).flush).finish_lines
  have lines : wrapLines (before ++ newline :: after) width =
      (Wrapping.wrapFrom w before {}).flush.lines ++ (middle ++ last) := by
    rw [wrapLines, narrow, Wrapping.wrapFrom_newline, done, added, List.append_assoc]
  have left : ((Wrapping.wrapFrom w before {}).flush.lines.flatMap codepoints).filter Codepoint.inked =
      (codepoints before).filter Codepoint.inked := by
    have whole := @Wrapping.wrapFrom_carried w {} before
    rw [Wrapping.carried_empty, List.nil_append, ← Wrapping.flush_carried, Wrapping.carried] at whole
    refine Eq.trans ?_ whole
    rw [show (Wrapping.wrapFrom w before {}).flush.current = [] from rfl, codepoints, List.append_nil]
  rw [lines, parts, List.flatMap_append, List.filter_append, List.filter_append, left,
    List.filter_cons_of_neg (by decide)] at carried
  rw [lines] at sound
  refine ⟨_, _, lines, ?_, ?_⟩
  · exact inked_points (fun line member => (sound line (List.mem_append_left _ member)).2) (fun _ => flatMap_solid)
      (flatten_codepoints _) left
  · exact inked_points (fun line member => (sound line (List.mem_append_right _ member)).2) (fun _ => flatMap_solid)
      (flatten_codepoints _) (List.append_cancel_left carried)

/-- The lines of a text show what is seen of it, each fits in the width or is one code point; no character of several bytes
is on two lines, and no line has something of both sides of a newline. -/
theorem wrapLines_exact (text : Bytes) (width : Nat) :
    inked (wrapLines text width) = ink text ∧ (∀ line ∈ wrapLines text width, Fits (max width 1) line) ∧
      (∀ (c : Char) (before after : Bytes), 0x80 ≤ c.val.toNat → text = before ++ (String.utf8EncodeChar c ++ after) →
        ∃ front u v back, wrapLines text width = front ++ (u ++ (String.utf8EncodeChar c ++ v)) :: back ∧
          inked (front ++ [u]) = ink before ∧ inked (v :: back) = ink after) ∧
        ∀ before after : Bytes, text = before ++ newline :: after → ∃ front back, wrapLines text width = front ++ back ∧
          inked front = ink before ∧ inked back = ink after := by
  refine ⟨wrapLines_ink text width, fun line member => (wrapLines_sound text width line member).1, ?_, ?_⟩
  · rintro c before after large rfl
    exact wrapLines_char large before after width
  · rintro before after rfl
    exact wrapLines_newline before after width

theorem wrapLines_exact_sun : ∃ front u v back, wrapLines [97, 0xE6, 0x97, 0xA5, 10, 98] 2 =
    front ++ (u ++ (String.utf8EncodeChar '日' ++ v)) :: back ∧ inked (front ++ [u]) = ink [97] ∧
      inked (v :: back) = ink [10, 98] :=
  (wrapLines_exact [97, 0xE6, 0x97, 0xA5, 10, 98] 2).2.2.1 '日' [97] [10, 98] (by decide) (by decide)

/-- A letter and a mark on it are one column, which a width of 0 does not hold. -/
theorem wrapLines_zero : ∃ line ∈ wrapLines [97, 0xCC, 0x81] 0, ¬ Fits 0 line := by
  refine ⟨[97, 0xCC, 0x81], by decide +kernel, ?_⟩
  have two : (codepoints [97, 0xCC, 0x81]).length = 2 := by decide +kernel
  rintro (narrow | ⟨c, single, -⟩)
  · exact absurd narrow (by decide +kernel)
  · rw [single] at two
    cases two

end Araya.App
