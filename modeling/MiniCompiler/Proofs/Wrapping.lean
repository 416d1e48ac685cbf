import Mathlib.Data.List.Chain
import MiniCompiler.Text.Wrap

/-!
# Wrapped text

Wrapping divides the words of a text into lines and loses none of them. Every line takes as many words as
fit, and so there are as few lines as there can be (`Text.wrapText_greedy`).

A division is a list of lines, each of them a list of words; `lineOf` is the text of a line. The words of
a text are what is between blanks (`words_eq`), and those of a line can be read back from its text
(`words_lineOf`). That no division has fewer lines rests on how the number of lines depends on the line
that is begun: a shorter one needs no more lines, and no two of them differ by more than one line
(`length_fillFrom_le`).
-/

namespace MiniCompiler.Text

variable {ws : List (List Char)} {room : Nat}

/-! ## Words -/

/-- The words of a text are the parts between blanks that are not empty. -/
theorem words_eq (cs : List Char) : words cs = (cs.splitOnP isBlank).filter (· ≠ []) := by
  induction cs with
  | nil => rfl
  | cons c cs ih =>
    rw [words, List.splitOnP_cons_eq_if_modifyHead]
    split
    next => simpa using ih
    next =>
      -- The first part after `c` is empty exactly if a blank or nothing follows `c`.
      cases cs with
      | nil => simp [words, List.splitOnP_nil]
      | cons d ds =>
        rw [List.splitOnP_cons_eq_if_modifyHead] at ih ⊢
        by_cases hd : isBlank d = true
        · simp_all
        · obtain ⟨part, parts, hparts⟩ :=
            List.exists_cons_of_ne_nil (List.splitOnP_ne_nil isBlank ds)
          simp_all

theorem words_append_blank {c : Char} (hc : isBlank c = true) (as bs : List Char) :
    words (as ++ c :: bs) = words as ++ words bs := by
  rw [words_eq, words_eq, words_eq, List.splitOnP_append_cons as bs hc, List.filter_append]

theorem words_of_not_isBlank {w : List Char} (hne : w ≠ []) (h : ∀ c ∈ w, isBlank c = false) :
    words w = [w] := by
  rw [words_eq, List.splitOnP_eq_singleton h]
  simp [hne]

/-- A word is not empty and has no blank. -/
theorem mem_words {cs w : List Char} (hw : w ∈ words cs) :
    w ≠ [] ∧ ∀ c ∈ w, isBlank c = false := by
  induction cs generalizing w with
  | nil => cases hw
  | cons c cs ih =>
    rw [words] at hw
    split at hw
    next => exact ih hw
    next hc =>
      have hc : isBlank c = false := Bool.eq_false_iff.2 hc
      split at hw
      next v vs _ hvs =>
        rw [hvs] at ih
        obtain rfl | hw := List.mem_cons.1 hw
        · exact ⟨List.cons_ne_nil c v, List.forall_mem_cons.2 ⟨hc, (ih (by simp)).2⟩⟩
        · exact ih (by simp [hw])
      next =>
        obtain rfl | hw := List.mem_cons.1 hw
        · exact ⟨by simp, by simpa using hc⟩
        · exact ih hw

/-! ## Lines -/

/-- The text of a line with the given words. -/
def lineOf (ws : List (List Char)) : List Char := [' '].intercalate ws

theorem lineOf_singleton (w : List Char) : lineOf [w] = w := List.intercalate_singleton

theorem lineOf_cons_cons (v w : List Char) (ws : List (List Char)) :
    lineOf (v :: w :: ws) = v ++ ' ' :: lineOf (w :: ws) := by
  simp [lineOf, List.intercalate_cons_cons]

theorem byteCount_joined (l w : List Char) :
    byteCount (l ++ ' ' :: w) = byteCount l + 1 + byteCount w := by
  have hspace : ' '.utf8Size = 1 := rfl
  rw [byteCount_append, byteCount, hspace, Nat.add_assoc]

theorem lineOf_concat (hws : ws ≠ []) (w : List Char) :
    lineOf (ws ++ [w]) = lineOf ws ++ ' ' :: w := by
  induction ws with
  | nil => exact absurd rfl hws
  | cons v ws ih =>
    cases ws with
    | nil => rw [List.cons_append, List.nil_append, lineOf_cons_cons, lineOf_singleton, lineOf_singleton]
    | cons u us =>
      rw [List.cons_append, List.cons_append, lineOf_cons_cons, ← List.cons_append,
        ih (List.cons_ne_nil u us), lineOf_cons_cons, List.append_assoc, List.cons_append]

theorem lineOf_ne_nil (hws : ws ≠ []) (h : ∀ w ∈ ws, w ≠ []) :
    lineOf ws ≠ [] := by
  cases ws with
  | nil => exact absurd rfl hws
  | cons v ws =>
    cases ws with
    | nil => rw [lineOf_singleton]; exact h v (by simp)
    | cons u us => simp [lineOf_cons_cons]

/-- The words of a line can be read back from its text. -/
theorem words_lineOf
    (h : ∀ w ∈ ws, w ≠ [] ∧ ∀ c ∈ w, isBlank c = false) : words (lineOf ws) = ws := by
  induction ws with
  | nil => rfl
  | cons v ws ih =>
    have hv := words_of_not_isBlank (h v (by simp)).1 (h v (by simp)).2
    cases ws with
    | nil => rw [lineOf_singleton, hv]
    | cons u us =>
      rw [lineOf_cons_cons, words_append_blank rfl, hv, ih fun w hw => h w (by simp [hw])]
      rfl

/-! ## Divisions -/

/-- A division of words into lines: no line is empty, and one that takes more than `room` bytes has a
    single word. -/
structure Wraps (room : Nat) (ws : List (List Char)) (lines : List (List (List Char))) : Prop where
  flatten : lines.flatten = ws
  ne_nil : ∀ l ∈ lines, l ≠ []
  alone : ∀ l ∈ lines, room < byteCount (lineOf l) → l.length = 1

/-- The first word of the line `next` does not fit on the line before it. -/
def Overfull (room : Nat) (l next : List (List Char)) : Prop :=
  room < byteCount (lineOf l) + 1 + byteCount (next.headD [])

/-- Filling lines divides the words, those of the line `l` that is begun and the following. -/
theorem exists_wraps_fillFrom (room : Nat) (ws : List (List Char)) {l : List (List Char)} (hl : l ≠ [])
    (halone : room < byteCount (lineOf l) → l.length = 1) :
    ∃ first rest, fillFrom room (lineOf l) ws = (first :: rest).map lineOf ∧
      Wraps room (l ++ ws) (first :: rest) ∧ (first :: rest).IsChain (Overfull room) ∧
      first.headD [] = l.headD [] := by
  induction ws generalizing l with
  | nil => exact ⟨l, [], rfl, ⟨by simp, by simpa using hl, by simpa using halone⟩, .singleton l, rfl⟩
  | cons w ws ih =>
    rw [fillFrom]
    split
    next hfits =>
      have hroom : byteCount (lineOf (l ++ [w])) ≤ room := by
        rw [lineOf_concat hl, byteCount_joined]
        exact hfits
      obtain ⟨first, rest, heq, hwraps, hchain, hhead⟩ :=
        ih (l := l ++ [w]) (by simp) fun h => absurd h (Nat.not_lt.2 hroom)
      refine ⟨first, rest, by rw [← lineOf_concat hl, heq], by simpa using hwraps, hchain, ?_⟩
      rw [hhead]
      cases l with
      | nil => exact absurd rfl hl
      | cons => rfl
    next hfull =>
      obtain ⟨first, rest, heq, hwraps, hchain, hhead⟩ := ih (l := [w]) (by simp) fun _ => rfl
      rw [lineOf_singleton] at heq
      refine ⟨l, first :: rest, by rw [heq]; rfl, ⟨?_, ?_, ?_⟩, .cons_cons ?_ hchain, rfl⟩
      · rw [List.flatten_cons, hwraps.flatten]
        rfl
      · exact List.forall_mem_cons.2 ⟨hl, hwraps.ne_nil⟩
      · exact List.forall_mem_cons.2 ⟨halone, hwraps.alone⟩
      · rw [Overfull, hhead]
        exact Nat.lt_of_not_le hfull

theorem exists_wraps_fill (room : Nat) (ws : List (List Char)) :
    ∃ lines, fill room ws = lines.map lineOf ∧ Wraps room ws lines ∧
      lines.IsChain (Overfull room) := by
  cases ws with
  | nil => exact ⟨[], rfl, ⟨rfl, by simp, by simp⟩, .nil⟩
  | cons w ws =>
    obtain ⟨first, rest, heq, hwraps, hchain, -⟩ :=
      exists_wraps_fillFrom room ws (l := [w]) (by simp) fun _ => rfl
    exact ⟨first :: rest, by rw [← heq, lineOf_singleton]; rfl, hwraps, hchain⟩

/-! ## The number of lines -/

/-- A shorter line to begin with needs no more lines, and whatever it is begun with, filling needs at most
    one line more. The two go together: where only one of two lines takes a word in, the other one starts
    again behind it, and is shorter then. -/
theorem length_fillFrom_le (room : Nat) (ws : List (List Char)) (l k : List Char) :
    (byteCount l ≤ byteCount k → (fillFrom room l ws).length ≤ (fillFrom room k ws).length) ∧
      (fillFrom room l ws).length ≤ (fillFrom room k ws).length + 1 := by
  induction ws generalizing l k with
  | nil => simp [fillFrom]
  | cons w ws ih =>
    rw [fillFrom, fillFrom]
    split <;> split
    next hl hk =>
      obtain ⟨hmono, hone⟩ := ih (l ++ ' ' :: w) (k ++ ' ' :: w)
      refine ⟨fun hle => hmono ?_, hone⟩
      rw [byteCount_joined, byteCount_joined]
      omega
    next hl hk =>
      have hone := (ih (l ++ ' ' :: w) w).2
      exact ⟨fun _ => hone, Nat.le_succ_of_le hone⟩
    next hl hk =>
      refine ⟨fun hle => absurd hk (by omega), Nat.succ_le_succ ((ih w (k ++ ' ' :: w)).1 ?_)⟩
      rw [byteCount_joined]
      omega
    next hl hk => exact ⟨fun _ => Nat.le_refl _, Nat.le_succ _⟩

theorem byteCount_lineOf_le {l : List (List Char)} (hl : l ≠ []) (vs : List (List Char)) :
    byteCount (lineOf l) ≤ byteCount (lineOf (l ++ vs)) := by
  induction vs generalizing l with
  | nil => simp
  | cons v vs ih =>
    have hrest := ih (l := l ++ [v]) (by simp)
    rw [lineOf_concat hl, byteCount_joined, List.append_assoc] at hrest
    exact Nat.le_trans (by omega) hrest

/-- A line takes in words that fit. -/
theorem fillFrom_append {l vs : List (List Char)} (hl : l ≠ [])
    (hfits : vs ≠ [] → byteCount (lineOf (l ++ vs)) ≤ room) (ws : List (List Char)) :
    fillFrom room (lineOf l) (vs ++ ws) = fillFrom room (lineOf (l ++ vs)) ws := by
  induction vs generalizing l with
  | nil => simp
  | cons v vs ih =>
    have hwhole : byteCount (lineOf (l ++ [v] ++ vs)) ≤ room := by
      simpa using hfits (List.cons_ne_nil v vs)
    have hfirst := Nat.le_trans (byteCount_lineOf_le (l := l ++ [v]) (by simp) vs) hwhole
    rw [lineOf_concat hl, byteCount_joined] at hfirst
    rw [List.cons_append, fillFrom, if_pos hfirst, ← lineOf_concat hl,
      ih (by simp) fun _ => hwhole, List.append_assoc]
    rfl

/-- A line that is started with the first word of a line of a division takes in the words of that line. -/
theorem fillFrom_line {w : List Char} {vs : List (List Char)}
    (halone : room < byteCount (lineOf (w :: vs)) → (w :: vs).length = 1) (ws : List (List Char)) :
    fillFrom room w (vs ++ ws) = fillFrom room (lineOf (w :: vs)) ws := by
  have hfits : vs ≠ [] → byteCount (lineOf ([w] ++ vs)) ≤ room := by
    intro hvs
    by_contra hlong
    have hone := halone (Nat.lt_of_not_le hlong)
    simp [hvs] at hone
  have happend := fillFrom_append (List.cons_ne_nil w []) hfits ws
  rwa [lineOf_singleton] at happend

/-- Filling lines needs no more of them than any division of the words, and at most one for what is on
    the line that is begun. -/
theorem length_fillFrom_flatten_le {lines : List (List (List Char))}
    (hne : ∀ l ∈ lines, l ≠ []) (halone : ∀ l ∈ lines, room < byteCount (lineOf l) → l.length = 1)
    (begun : List Char) : (fillFrom room begun lines.flatten).length ≤ lines.length + 1 := by
  induction lines generalizing begun with
  | nil => simp [fillFrom]
  | cons l lines ih =>
    obtain ⟨w, vs, rfl⟩ := List.exists_cons_of_ne_nil (hne l (by simp))
    have hrest : (fillFrom room w (vs ++ lines.flatten)).length ≤ lines.length + 1 := by
      rw [fillFrom_line (halone (w :: vs) (by simp))]
      exact ih (fun l hl => hne l (by simp [hl])) (fun l hl => halone l (by simp [hl])) _
    rw [List.flatten_cons, List.cons_append, fillFrom, List.length_cons]
    split
    next =>
      -- The word `w` is not the first of its line here: that saves a line or costs nothing.
      have hone := (length_fillFrom_le room (vs ++ lines.flatten) (begun ++ ' ' :: w) w).2
      omega
    next => exact Nat.succ_le_succ hrest

/-- No division has fewer lines. -/
theorem Wraps.length_fill_le {lines : List (List (List Char))}
    (h : Wraps room ws lines) : (fill room ws).length ≤ lines.length := by
  obtain ⟨rfl, hne, halone⟩ := h
  cases lines with
  | nil => simp [fill]
  | cons l lines =>
    obtain ⟨w, vs, rfl⟩ := List.exists_cons_of_ne_nil (hne l (by simp))
    rw [List.flatten_cons, List.cons_append, fill, fillFrom_line (halone (w :: vs) (by simp))]
    exact length_fillFrom_flatten_le (fun l hl => hne l (by simp [hl]))
      (fun l hl => halone l (by simp [hl])) _

/-- Wrapping loses nothing and is greedy. The lines are not empty. Their words, which stand in them with
    single spaces between, are together the words of the text. A line that is longer than the room has a
    single word, and no line has room left for the first word of the next one. No division of the words
    with such lines has fewer of them. -/
theorem wrapText_greedy (width : Int) (text : List Char) :
    ∃ lines, wrapText width text = lines.map lineOf ∧ (wrapText width text).map words = lines ∧
      (∀ line ∈ wrapText width text, line ≠ []) ∧
      Wraps (max width 10).toNat ((text.splitOnP isBlank).filter (· ≠ [])) lines ∧
      lines.IsChain (Overfull (max width 10).toNat) ∧
      ∀ others, Wraps (max width 10).toNat ((text.splitOnP isBlank).filter (· ≠ [])) others →
        lines.length ≤ others.length := by
  obtain ⟨lines, heq, hwraps, hchain⟩ := exists_wraps_fill (max width 10).toNat (words text)
  have hwords : ∀ l ∈ lines, ∀ w ∈ l, w ≠ [] ∧ ∀ c ∈ w, isBlank c = false := fun l hl w hw =>
    mem_words (hwraps.flatten ▸ List.mem_flatten.2 ⟨l, hl, hw⟩)
  have hwrap : wrapText width text = lines.map lineOf := heq
  rw [← words_eq, hwrap]
  refine ⟨lines, rfl, ?_, ?_, hwraps, hchain, fun others hothers => ?_⟩
  · rw [List.map_map]
    exact (List.map_congr_left fun l hl => words_lineOf (hwords l hl)).trans (List.map_id lines)
  · intro line hline
    obtain ⟨l, hl, rfl⟩ := List.mem_map.1 hline
    exact lineOf_ne_nil (hwraps.ne_nil l hl) fun w hw => (hwords l hl w hw).1
  · have hle := hothers.length_fill_le
    rwa [heq, List.length_map] at hle

end MiniCompiler.Text
