import MiniCompiler.Diagnostic
import MiniCompiler.Proofs.Division

/-!
# Diagnostics and the lexemes they point at

The scanner counts lines and columns forward, character by character; a diagnostic looks for its line
from the beginning of the file. `IsLine` says what a line is without either of them. Both agree on it:
the carets of a diagnostic at a token stand under the lexeme that the token was made from.

Main statement: `Diagnostic.render_at_token`.
-/

namespace MiniCompiler

open Text

variable {text : List Char} {o : ScanOptions} {cs : List Char}

/-! ## Lines -/

/-- Whole lines, each with the newline at its end. -/
def WholeLines (cs : List Char) : Prop := ∀ c ∈ cs.getLast?, c = '\n'

/-- What may stand behind a line: nothing, or a newline and any text. -/
def EndsLine (cs : List Char) : Prop := ∀ c ∈ cs.head?, c = '\n'

/-- `line` is line `n` of a text, counted from 1: what stands between the newlines around it. -/
def IsLine (text : List Char) (n : Int) (line : List Char) : Prop :=
  ∃ before after, text = before ++ line ++ after ∧ n = 1 + before.count '\n' ∧
    WholeLines before ∧ '\n' ∉ line ∧ EndsLine after

theorem wholeLines_nil : WholeLines [] := by
  intro c hc
  cases hc

theorem WholeLines.tail {c : Char} (h : WholeLines (c :: cs)) : WholeLines cs := by
  cases cs with
  | nil => exact wholeLines_nil
  | cons d cs => rwa [WholeLines, List.getLast?_cons_cons] at h

/-- A text is made of whole lines and the beginning of another one. -/
theorem exists_wholeLines (cs : List Char) :
    ∃ whole lead, cs = whole ++ lead ∧ WholeLines whole ∧ '\n' ∉ lead := by
  induction cs using List.reverseRecOn with
  | nil => exact ⟨[], [], rfl, wholeLines_nil, List.not_mem_nil⟩
  | append_singleton cs c ih =>
    by_cases hc : c = '\n'
    · refine ⟨cs ++ [c], [], (List.append_nil _).symm, ?_, List.not_mem_nil⟩
      simp [WholeLines, hc]
    · obtain ⟨whole, lead, rfl, hwhole, hlead⟩ := ih
      refine ⟨whole, lead ++ [c], List.append_assoc _ _ _, hwhole, ?_⟩
      simp [hlead, Ne.symm hc]

theorem takeWhile_of_endsLine (h : EndsLine cs) :
    cs.takeWhile (· != '\n') = [] := by
  cases cs with
  | nil => rfl
  | cons c cs => simp [h c rfl]

theorem endsLine_dropWhile (cs : List Char) : EndsLine (cs.dropWhile (· != '\n')) := by
  intro c hc
  have hstop := List.head?_dropWhile_not (· != '\n') cs
  rw [Option.mem_def.1 hc] at hstop
  simpa using hstop

theorem takeWhile_line (h : '\n' ∉ cs) (rest : List Char) :
    (cs ++ rest).takeWhile (· != '\n') = cs ++ rest.takeWhile (· != '\n') := by
  apply List.takeWhile_append_of_pos
  intro c hc
  simpa using fun heq : c = '\n' => h (heq ▸ hc)

theorem Place.behind_wholeLines {whole lead : List Char} (hwhole : WholeLines whole)
    (hlead : '\n' ∉ lead) :
    Place.behind (whole ++ lead) = ⟨1 + whole.count '\n', 1 + lead.length⟩ := by
  have hstop : whole.reverse.takeWhile (· != '\n') = [] :=
    takeWhile_of_endsLine (by rwa [EndsLine, List.head?_reverse])
  have hcount : lead.count '\n' = 0 := List.count_eq_zero.2 hlead
  rw [behind, List.count_append, hcount, List.reverse_append,
    takeWhile_line (by rwa [List.mem_reverse]), hstop]
  simp

theorem Place.column_behind_le (before : List Char) :
    (Place.behind before).column ≤ before.length + 1 := by
  have htake := (List.takeWhile_prefix (· != '\n') (l := before.reverse)).length_le
  rw [List.length_reverse] at htake
  simp only [behind]
  omega

/-- Whole lines are passed over newline by newline. What was kept from before them no longer counts,
    unless there are none. -/
theorem afterNewlines_wholeLines {whole : List Char} (h : WholeLines whole) (start cs : List Char) :
    afterNewlines start (whole ++ cs) (whole.count '\n') = if whole = [] then start else cs := by
  induction whole generalizing start with
  | nil => simp [afterNewlines]
  | cons c whole ih =>
    have hrest := ih h.tail
    -- only a newline makes what follows it the new start; any other character has one after it
    by_cases hc : c = '\n'
    · rw [hc, List.count_cons_self, List.cons_append, afterNewlines, if_pos rfl, hrest,
        if_neg (List.cons_ne_nil _ _)]
      split
      next hnil => rw [hnil, List.nil_append]
      next => rfl
    · have hne : whole ≠ [] := by
        rintro rfl
        exact hc (h c rfl)
      have hmore : whole.count '\n' ≠ 0 := by
        intro hzero
        refine List.count_eq_zero.1 hzero ?_
        have hlast := List.getLast?_eq_some_getLast hne
        rw [← h.tail _ hlast]
        exact List.getLast_mem hne
      obtain ⟨n, hn⟩ := Nat.exists_eq_succ_of_ne_zero hmore
      rw [List.count_cons_of_ne hc, List.cons_append, if_neg (List.cons_ne_nil _ _)]
      rw [hn] at hrest ⊢
      rw [afterNewlines, if_neg hc, hrest, if_neg hne]

theorem lineOf_wholeLines {whole : List Char} (h : WholeLines whole) (cs : List Char) :
    lineOf (whole ++ cs) (1 + whole.count '\n') = cs.takeWhile (· != '\n') := by
  have hcount : (1 + (whole.count '\n' : Int) - 1).toNat = whole.count '\n' := by omega
  rw [lineOf, hcount, afterNewlines_wholeLines h]
  split
  next hnil => rw [hnil, List.nil_append]
  next => rfl

/-- The line of what stands behind `before` and goes on without a newline, as a diagnostic finds it. -/
theorem lineOf_behind (before : List Char) {chars : List Char} (hchars : '\n' ∉ chars)
    (rest : List Char) :
    IsLine (before ++ (chars ++ rest)) (Place.behind before).line
      (lineOf (before ++ (chars ++ rest)) (Place.behind before).line) ∧
    ((lineOf (before ++ (chars ++ rest)) (Place.behind before).line).drop
      ((Place.behind before).column - 1)).take chars.length = chars := by
  obtain ⟨whole, lead, rfl, hwhole, hlead⟩ := exists_wholeLines before
  have hline : lineOf (whole ++ lead ++ (chars ++ rest)) (1 + whole.count '\n' : Nat) =
      lead ++ (chars ++ rest.takeWhile (· != '\n')) := by
    rw [List.append_assoc, Int.natCast_add, Int.cast_ofNat_Int, lineOf_wholeLines hwhole,
      takeWhile_line hlead, takeWhile_line hchars]
  rw [Place.behind_wholeLines hwhole hlead]
  simp only [hline, Nat.add_sub_cancel_left, List.drop_left, List.take_left, and_true]
  refine ⟨whole, rest.dropWhile (· != '\n'), ?_, rfl, hwhole, ?_, endsLine_dropWhile rest⟩
  · simp [List.takeWhile_append_dropWhile]
  · have hrest : '\n' ∉ rest.takeWhile (· != '\n') := fun hmem => by
      simpa using List.mem_takeWhile_imp hmem
    simp [hlead, hchars, hrest]

/-! ## Tokens and their lexemes -/

/-- A token and the lexeme that it was made from: the longest one that stands in the text where the
    token says, or the opening of a block comment that is not closed. -/
inductive MadeFrom (o : ScanOptions) (text : List Char) : Token → Lexeme → Prop where
  | lexeme {before rest : List Char} {l : Lexeme} :
    text = before ++ (l.chars ++ rest) → l.Formed → l.Longest (l.chars ++ rest) →
    ¬ OpensComment o.lineComments (l.chars ++ rest) →
    MadeFrom o text (l.token o.file (.behind before)) l
  | unclosed {before body : List Char} :
    text = before ++ (['/', '*'] ++ body) → ¬ ClosesComment body →
    MadeFrom o text ⟨.illegal, LexicalError.unterminatedComment.message,
      (Place.behind before).pos o.file 2⟩ (.illegal .unterminatedComment ['/', '*'])

/-- The cursor stands in the text: what it has still to read is the rest of it, and its place is
    counted from the beginning. -/
def Cursor.StandsIn (c : Cursor) (text : List Char) : Prop :=
  ∃ before, text = before ++ c.rest ∧ c.place = .behind before

theorem Cursor.standsIn_start (text : List Char) : Cursor.StandsIn ⟨text, {}⟩ text :=
  ⟨[], rfl, rfl⟩

theorem Cursor.next_trailer (h : IsTrailer o.lineComments cs) (p : Place) : Cursor.next o ⟨cs, p⟩ =
      (Lexeme.endOfFile.token o.file (p.afterAll cs), ⟨[], p.afterAll cs⟩) := by
  simp only [Cursor.next, Cursor.skipGap, h.skip]
  rfl

/-- A block comment that is not closed takes the rest of the text. -/
theorem Cursor.next_unclosed {gap body : List Char}
    (hgap : IsGap o.lineComments gap) (hbody : ¬ ClosesComment body) (p : Place) :
    Cursor.next o ⟨gap ++ '/' :: '*' :: body, p⟩ =
      (⟨.illegal, LexicalError.unterminatedComment.message, (p.afterAll gap).pos o.file 2⟩,
        ⟨[], p.afterAll (gap ++ '/' :: '*' :: body)⟩) := by
  simp only [Cursor.next, Cursor.skipGap, hgap.skip, skipGapFrom, skipGapFrom_unclosed hbody,
    ← Place.afterAll_append]
  simp

/-- A step of the scanner gives the end of the text or the token of a lexeme in it, and stays in the
    text. -/
theorem Cursor.StandsIn.next {c : Cursor} (h : c.StandsIn text) (o : ScanOptions) :
    ((c.next o).1.kind = .endOfFile ∨ ∃ l, MadeFrom o text (c.next o).1 l) ∧
      (c.next o).2.StandsIn text := by
  obtain ⟨cs, p⟩ := c
  obtain ⟨before, rfl, hplace⟩ := h
  simp only at hplace
  subst hplace
  cases startsWithGap o.lineComments cs with
  | ends hcs =>
    rw [Cursor.next_trailer hcs, Place.afterAll_behind]
    exact ⟨.inl rfl, before ++ cs, by simp, rfl⟩
  | @unclosed gap body hgap hbody =>
    have htext : before ++ (gap ++ '/' :: '*' :: body) = before ++ gap ++ (['/', '*'] ++ body) := by
      simp
    rw [Cursor.next_unclosed hgap hbody, Place.afterAll_behind, Place.afterAll_behind]
    exact ⟨.inr ⟨_, .unclosed htext hbody⟩, _, (List.append_nil _).symm, rfl⟩
  | @stops gap c rest hgap hspace hopens =>
    obtain ⟨more, hmore⟩ := Lexeme.ofChars_prefix (c :: rest)
    have hformed := Lexeme.formed_ofChars rest hspace
    have hlongest := Lexeme.longest_ofChars c rest
    generalize Lexeme.ofChars (c :: rest) = l at hmore hformed hlongest
    rw [← hmore] at hlongest hopens ⊢
    have htext : before ++ (gap ++ (l.chars ++ more)) = before ++ gap ++ (l.chars ++ more) := by
      simp
    rw [Cursor.next_gap hgap hformed hlongest hopens, Place.afterAll_behind, Place.afterAll_behind]
    exact ⟨.inr ⟨l, .lexeme htext hformed hlongest hopens⟩, _, by simp, rfl⟩

/-- However often the scanner is asked, what it gives is the end of the text or made from a lexeme
    in it. -/
theorem Cursor.StandsIn.take {n : Nat} {c : Cursor}
    (h : c.StandsIn text) {t : Token} (ht : t ∈ Cursor.take o n c) :
    t.kind = .endOfFile ∨ ∃ l, MadeFrom o text t l := by
  induction n generalizing c with
  | zero => cases ht
  | succ n ih =>
    obtain ⟨hmade, hstands⟩ := h.next o
    obtain rfl | ht := List.mem_cons.1 ht
    · exact hmade
    · exact ih hstands ht

theorem MadeFrom.exists_place {t : Token} {l : Lexeme}
    (h : MadeFrom o text t l) : ∃ before rest, text = before ++ (l.chars ++ rest) ∧
      t.pos = (Place.behind before).pos o.file l.chars.length ∧ l.chars ≠ [] ∧ '\n' ∉ l.chars := by
  cases h with
  | @lexeme before rest _ htext hformed =>
    refine ⟨before, rest, htext, rfl, hformed.chars_ne_nil, fun hmem => ?_⟩
    have hspace := hformed.isSpace_of_mem _ hmem
    cases hspace
  | @unclosed before body htext => exact ⟨before, body, htext, rfl, by decide, by decide⟩

/-! ## What is shown -/

theorem pushn_eq_ofList (c : Char) (n : Nat) :
    "".pushn c n = String.ofList (List.replicate n c) := by
  rw [String.pushn_eq_repeat_push]
  induction n with
  | zero => rfl
  | succ n ih =>
    rw [Nat.repeat, ih, List.replicate_succ', String.ofList_append]
    rfl

/-- A text that memory has room for is made of any character. -/
theorem repeated_eq (c : Char) {n : Nat} (h : (n : Int) ≤ longestText) :
    repeated c n = .ok (String.ofList (List.replicate n c)) := by
  have hwrap : wrap n = n := by
    unfold longestText at h
    apply wrap_of_mem_range <;> unfold wordBound <;> omega
  have hnonneg : ¬ (n : Int) < 0 := by omega
  rw [repeated, hwrap, if_neg hnonneg, if_neg (Int.not_lt.2 h), Int.toNat_natCast, pushn_eq_ofList]

namespace Diagnostic

theorem caret_eq {n : Nat} (hpos : 0 < n) (h : (n : Int) ≤ longestText) :
    caret n = .ok ("^" ++ String.ofList (List.replicate (n - 1) '~')) := by
  have hpred : (n : Int) - 1 = (n - 1 : Nat) := by omega
  rw [caret]
  split
  next =>
    rw [hpred, repeated_eq '~' (by omega)]
    rfl
  next hone =>
    have hn : n - 1 = 0 := by omega
    rw [hn]
    rfl

/-- The first line of a diagnostic, in a file that is called `name`. -/
def headline (color : Bool) (d : Diagnostic) (name : String) : String :=
  name ++ ":" ++ toString d.pos.line ++ ":" ++ toString d.pos.column ++ ": " ++
    (if d.isError then paint color "31" "error:" else paint color "33" "warning:") ++ " " ++
    d.message ++ (if d.flag = "" then "" else " [-W" ++ d.flag ++ "]")

/-- A diagnostic whose position is in a source file has three lines. -/
theorem render_eq (color : Bool) {d : Diagnostic} {files : List SourceFile} {file : SourceFile}
    {p : Place} {i : Int} {length : Nat} (hpos : d.pos = p.pos i length)
    (hfile : d.pos.sourceFile? files = some file) (hline : 0 < p.line) (hcolumn : 0 < p.column)
    (hlength : 0 < length) (hindent : (p.column : Int) ≤ longestText)
    (hcaret : (length : Int) ≤ longestText) :
    d.render color files = .ok (d.headline color file.name ++
      "\n  " ++ String.ofList (lineOf file.text p.line) ++
      "\n  " ++ String.ofList (List.replicate (p.column - 1) ' ') ++
        paint color "32" ("^" ++ String.ofList (List.replicate (length - 1) '~')) ++ "\n") := by
  have hpred : (p.column : Int) - 1 = (p.column - 1 : Nat) := by omega
  have hshown : ¬ ((p.line : Int) = 0 ∨ (p.column : Int) = 0) := by omega
  have hsource : d.sourceLine color files = .ok
      ("  " ++ String.ofList (lineOf file.text p.line) ++ "\n  " ++
        String.ofList (List.replicate (p.column - 1) ' ') ++
        paint color "32" ("^" ++ String.ofList (List.replicate (length - 1) '~')) ++ "\n") := by
    rw [sourceLine, hfile]
    simp only [hpos, Place.pos, if_neg hshown, caret_eq hlength hcaret, hpred,
      repeated_eq ' ' (show ((p.column - 1 : Nat) : Int) ≤ longestText by omega)]
    rfl
  have hplace : d.place files =
      file.name ++ ":" ++ toString d.pos.line ++ ":" ++ toString d.pos.column := by
    rw [place, hfile]
    rfl
  have hjoin (s : String) : "\n" ++ ("  " ++ s) = "\n  " ++ s := by
    rw [← String.append_assoc]
    rfl
  rw [render, hsource, hplace]
  cases hseverity : d.severity <;>
    simp [bind, Except.bind, pure, Except.pure, headline, isError, hseverity, hjoin,
      String.append_assoc]

/-- A diagnostic at any token but the end of the text can be shown, if memory has room for the text.
    Below its headline it has the line of the token, and under that line carets: the characters above
    them are the lexeme that the token was made from. -/
theorem render_at_token {i : Nat} {lineComments : Bool} {text : List Char} {n : Nat} {t : Token}
    (ht : t ∈ Cursor.take ⟨i, lineComments⟩ n ⟨text, {}⟩) (hend : t.kind ≠ .endOfFile)
    {files : List SourceFile} {name : String} (hfile : files[i]? = some ⟨name, text⟩)
    (hroom : (text.length : Int) ≤ longestText) (d : Diagnostic) (hd : d.pos = t.pos) :
    (∀ color, ∃ shown, d.render color files = .ok shown) ∧
    ∃ l line, MadeFrom ⟨i, lineComments⟩ text t l ∧ IsLine text t.pos.line line ∧
      d.render false files = .ok (d.headline false name ++
        "\n  " ++ String.ofList line ++
        "\n  " ++ String.ofList (List.replicate (t.pos.column - 1).toNat ' ') ++
          ("^" ++ String.ofList (List.replicate (t.pos.length - 1).toNat '~')) ++ "\n") ∧
      (line.drop (t.pos.column - 1).toNat).take t.pos.length.toNat = l.chars := by
  obtain hlast | ⟨l, hmade⟩ := (Cursor.standsIn_start text).take ht
  · exact absurd hlast hend
  obtain ⟨before, rest, htext, hpos, hne, hchars⟩ := hmade.exists_place
  obtain ⟨hline, hlexeme⟩ := lineOf_behind before hchars rest
  rw [← htext] at hline hlexeme
  have hlength := List.length_pos_iff.2 hne
  have hcolumn := Place.column_behind_le before
  have hsize : before.length + (l.chars.length + rest.length) = text.length := by simp [htext]
  have hsource : d.pos.sourceFile? files = some ⟨name, text⟩ := by
    rw [hd, hpos]
    exact hfile
  have hshown (color : Bool) := render_eq color (hd.trans hpos) hsource
    (Nat.add_pos_left Nat.one_pos _) (Nat.add_pos_left Nat.one_pos _) hlength (by omega) (by omega)
  have hindent : ((Place.behind before).column - 1 : Int).toNat = (Place.behind before).column - 1 := by
    omega
  have hcaret : (l.chars.length - 1 : Int).toNat = l.chars.length - 1 := by omega
  rw [hpos]
  simp only [Place.pos, hindent, hcaret, Int.toNat_natCast]
  exact ⟨fun color => ⟨_, hshown color⟩, l, _, hmade, hline, hshown false, hlexeme⟩

/-- A comment over two lines, two illegal lexemes on different lines, and no newline at the end. -/
def brokenText : List Char := "/* \u00f6\n// */ x #\n\t\u0663y".toList

/-- What is said of the last lexeme of `brokenText`, which is in the second of two files. -/
def brokenNumber : Diagnostic where
  message := "Malformed number '\u0663y'"
  pos := ⟨1, 3, 2, 2⟩

def brokenFiles : List SourceFile := [⟨"a.mini", []⟩, ⟨"b.mini", brokenText⟩]

theorem render_at_token_brokenText :
    let t : Token := ⟨.illegal, brokenNumber.message, brokenNumber.pos⟩
    t ∈ Cursor.take ⟨1, true⟩ 3 ⟨brokenText, {}⟩ ∧ t.kind ≠ .endOfFile ∧
    brokenFiles[1]? = some ⟨"b.mini", brokenText⟩ ∧ (brokenText.length : Int) ≤ longestText ∧
    (∀ color, ∃ shown, brokenNumber.render color brokenFiles = .ok shown) ∧
    ∃ l line, MadeFrom ⟨1, true⟩ brokenText t l ∧ IsLine brokenText 3 line ∧
      brokenNumber.render false brokenFiles = .ok (brokenNumber.headline false "b.mini" ++
        "\n  " ++ String.ofList line ++
        "\n  " ++ String.ofList (List.replicate 1 ' ') ++
          ("^" ++ String.ofList (List.replicate 1 '~')) ++ "\n") ∧
      (line.drop 1).take 2 = l.chars := by
  have ht : (⟨.illegal, brokenNumber.message, brokenNumber.pos⟩ : Token) ∈
      Cursor.take ⟨1, true⟩ 3 ⟨brokenText, {}⟩ := by decide
  have hroom : (brokenText.length : Int) ≤ longestText := by decide
  exact ⟨ht, by decide, rfl, hroom,
    render_at_token (i := 1) ht (by decide) rfl hroom brokenNumber rfl⟩

end Diagnostic
end MiniCompiler
