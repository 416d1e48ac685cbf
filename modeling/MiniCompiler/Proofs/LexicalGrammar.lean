import Mathlib.Data.List.Infix
import MiniCompiler.Proofs.Rendering

/-!
# The lexical grammar

What a text is made of, said without the scanner: gaps, which are white space and comments, and
lexemes, which are words, numbers and symbols. Where a text has no gap, the lexeme that it starts
with is the longest one of the grammar. What is no lexeme of the language has a form as well, so that
also the lexeme that ends a scan is a longest one.

Main statements: `startsWithGap`, `Lexeme.longest_ofChars` and `Lexeme.Formed.ofChars_eq`.
-/

namespace MiniCompiler

open Text

/-! ## Gaps -/

/-- The text has the end of a block comment in it. -/
def ClosesComment (cs : List Char) : Prop := ['*', '/'] <:+: cs

instance (cs : List Char) : Decidable (ClosesComment cs) :=
  inferInstanceAs (Decidable (['*', '/'] <:+: cs))

/-- White space and whole comments. A line comment takes the end of its line with it, and there are
    such comments only if `lineComments` says so. -/
inductive IsGap (lineComments : Bool) : List Char → Prop where
  | nil : IsGap lineComments []
  | space {c : Char} {cs : List Char} :
    isSpace c = true → IsGap lineComments cs → IsGap lineComments (c :: cs)
  | blockComment {body cs : List Char} :
    ¬ ClosesComment body → IsGap lineComments cs →
    IsGap lineComments ('/' :: '*' :: (body ++ '*' :: '/' :: cs))
  | lineComment {body cs : List Char} :
    lineComments = true → '\n' ∉ body → IsGap lineComments cs →
    IsGap lineComments ('/' :: '/' :: (body ++ '\n' :: cs))

/-- What may stand after the last token: a gap, and at its end a line comment that goes on to the
    end of the text. -/
inductive IsTrailer (lineComments : Bool) : List Char → Prop where
  | gap {cs : List Char} : IsGap lineComments cs → IsTrailer lineComments cs
  | lineComment {cs body : List Char} :
    lineComments = true → IsGap lineComments cs → '\n' ∉ body →
    IsTrailer lineComments (cs ++ '/' :: '/' :: body)

/-- The text starts like a comment. -/
def OpensComment (lineComments : Bool) (cs : List Char) : Prop :=
  ['/', '*'] <+: cs ∨ lineComments = true ∧ ['/', '/'] <+: cs

variable {lineComments : Bool} {c : Char} {k : TokenKind}

theorem IsGap.append {cs ds : List Char} (hcs : IsGap lineComments cs)
    (hds : IsGap lineComments ds) : IsGap lineComments (cs ++ ds) := by
  induction hcs with
  | nil => exact hds
  | space hc _ ih => exact .space hc ih
  | blockComment hbody _ ih => simpa using IsGap.blockComment hbody ih
  | lineComment hlines hbody _ ih => simpa using IsGap.lineComment hlines hbody ih

theorem IsTrailer.after {gap cs : List Char} (h : IsTrailer lineComments cs)
    (hgap : IsGap lineComments gap) : IsTrailer lineComments (gap ++ cs) := by
  cases h with
  | gap hcs => exact .gap (hgap.append hcs)
  | lineComment hlines hcs hbody =>
    rw [← List.append_assoc]
    exact .lineComment hlines (hgap.append hcs) hbody

/-- A newline makes a gap of all that may stand after the last token. -/
theorem IsTrailer.newline {cs : List Char} (h : IsTrailer lineComments cs) :
    IsGap lineComments (cs ++ ['\n']) := by
  cases h with
  | gap hcs => exact hcs.append (.space rfl .nil)
  | lineComment hlines hcs hbody =>
    rw [List.append_assoc]
    exact hcs.append (.lineComment hlines hbody .nil)

theorem not_closesComment_cons {cs : List Char} (hcs : ¬ ClosesComment cs)
    (hfirst : c = '*' → ∀ d ∈ cs.head?, d ≠ '/') : ¬ ClosesComment (c :: cs) := by
  intro h
  rcases List.infix_cons_iff.1 h with h | h
  · obtain ⟨ds, hds⟩ := h
    cases hds
    exact hfirst rfl '/' rfl rfl
  · exact hcs h

/-- A text has a first end of a block comment, or none at all. -/
theorem exists_closing (cs : List Char) :
    (∃ body rest, cs = body ++ '*' :: '/' :: rest ∧ ¬ ClosesComment body) ∨ ¬ ClosesComment cs := by
  have hnil : ¬ ClosesComment [] := by simp [ClosesComment]
  induction cs with
  | nil => exact .inr hnil
  | cons c cs ih =>
    by_cases hclose : c = '*' ∧ cs.head? = some '/'
    · obtain ⟨rfl, hhead⟩ := hclose
      obtain ⟨rest, rfl⟩ := List.head?_eq_some_iff.1 hhead
      exact .inl ⟨[], rest, rfl, hnil⟩
    rcases ih with ⟨body, rest, rfl, hbody⟩ | hcs
    · refine .inl ⟨c :: body, rest, rfl, not_closesComment_cons hbody ?_⟩
      rintro rfl d hd rfl
      refine hclose ⟨rfl, ?_⟩
      rw [List.head?_append, Option.mem_def.1 hd]
      rfl
    · refine .inr (not_closesComment_cons hcs ?_)
      rintro rfl d hd rfl
      exact hclose ⟨rfl, hd⟩

/-- How a text goes on after its first gap: it ends, a block comment is not closed, or something stands
    there that is neither white space nor a comment. -/
inductive StartsWithGap (lineComments : Bool) : List Char → Prop where
  | ends {cs : List Char} : IsTrailer lineComments cs → StartsWithGap lineComments cs
  | unclosed {gap body : List Char} :
    IsGap lineComments gap → ¬ ClosesComment body →
    StartsWithGap lineComments (gap ++ '/' :: '*' :: body)
  | stops {gap : List Char} {c : Char} {rest : List Char} :
    IsGap lineComments gap → isSpace c = false → ¬ OpensComment lineComments (c :: rest) →
    StartsWithGap lineComments (gap ++ c :: rest)

theorem StartsWithGap.after {gap cs : List Char} (hgap : IsGap lineComments gap)
    (h : StartsWithGap lineComments cs) : StartsWithGap lineComments (gap ++ cs) := by
  cases h with
  | ends hcs => exact .ends (hcs.after hgap)
  | unclosed hcs hbody =>
    rw [← List.append_assoc]
    exact .unclosed (hgap.append hcs) hbody
  | stops hcs hspace hopens =>
    rw [← List.append_assoc]
    exact .stops (hgap.append hcs) hspace hopens

/-- Every text starts with a gap, which may be empty. -/
theorem startsWithGap (lineComments : Bool) (cs : List Char) : StartsWithGap lineComments cs := by
  induction hn : cs.length using Nat.strong_induction_on generalizing cs with
  | _ n ih =>
    have hmore (gap rest : List Char) (hgap : IsGap lineComments gap) (hcs : cs = gap ++ rest)
        (hne : gap ≠ []) : StartsWithGap lineComments cs := by
      have hlt : rest.length < n := by
        have hpos := List.length_pos_iff.2 hne
        rw [← hn, hcs, List.length_append]
        omega
      exact hcs ▸ (ih _ hlt rest rfl).after hgap
    cases cs with
    | nil => exact .ends (.gap .nil)
    | cons c cs =>
      by_cases hspace : isSpace c = true
      · exact hmore [c] cs (.space hspace .nil) rfl (by simp)
      by_cases hopens : OpensComment lineComments (c :: cs)
      · obtain ⟨cs', hcs⟩ | ⟨hlines, cs', hcs⟩ := hopens
        · cases hcs
          rcases exists_closing cs' with ⟨body, rest, rfl, hbody⟩ | hbody
          · exact hmore _ rest (.blockComment hbody .nil) (by simp) (by simp)
          · exact .unclosed .nil hbody
        · cases hcs
          by_cases hline : '\n' ∈ cs'
          · obtain ⟨body, rest, rfl, hbody⟩ := List.eq_append_cons_of_mem hline
            exact hmore _ rest (.lineComment hlines hbody .nil) (by simp) (by simp)
          · exact .ends (.lineComment hlines .nil hline)
      · exact .stops .nil (by simpa using hspace) hopens

/-! ## Classes of characters -/

theorem isWordStart_of_isDigit (h : isDigit c = true) : isWordStart c = false := by
  have hmark : isDigit '_' = false := rfl
  have hne : c ≠ '_' := by
    rintro rfl
    rw [hmark] at h
    contradiction
  have hapart : (digitRanges.all fun r => letterRanges.all fun r' =>
      Nat.blt r.2 r'.1 || Nat.blt r'.2 r.1) = true := by decide +kernel
  have hletter : isLetter c = false := by
    by_contra hc
    rw [Bool.not_eq_false] at hc
    obtain ⟨r, hr, hlow, hhigh⟩ := CodeRange.exists_of_anyHolds h
    obtain ⟨r', hr', hlow', hhigh'⟩ := CodeRange.exists_of_anyHolds hc
    have hboth := List.all_eq_true.1 (List.all_eq_true.1 hapart r hr) r' hr'
    simp only [Bool.or_eq_true, Nat.blt_eq] at hboth
    omega
  simp [isWordStart, hletter, hne]

theorem isWordChar_of_isDigit (h : isDigit c = true) : isWordChar c = true := by
  simp [isWordChar, h]

theorem isWordChar_eq_false (hstart : ¬ isWordStart c = true)
    (hdigit : ¬ isDigit c = true) : isWordChar c = false := by
  simp only [isWordStart, Bool.or_eq_true, not_or, Bool.not_eq_true] at hstart hdigit
  simp [isWordChar, hstart, hdigit]

theorem isSpace_of_isWordChar (h : isWordChar c = true) : isSpace c = false := by
  have hall : ([' ', '\t', '\n', '\r', '\x0c'].all fun d => !isWordChar d) = true := rfl
  cases hspace : isSpace c with
  | false => rfl
  | true =>
    have hmem : c ∈ [' ', '\t', '\n', '\r', '\x0c'] := by
      simpa [isSpace, or_assoc] using hspace
    have hc := List.all_eq_true.1 hall c hmem
    simp [h] at hc

/-- A symbol is made of characters that are neither white space nor in words. -/
theorem TokenKind.symbols_chars (hk : k ∈ symbols) :
    k.text.toList ≠ [] ∧ ∀ c ∈ k.text.toList, isSpace c = false ∧ isWordChar c = false := by
  have hall : (symbols.all fun k => k.text.toList != [] &&
      k.text.toList.all fun c => !isSpace c && !isWordChar c) = true := rfl
  simpa using List.all_eq_true.1 hall k hk

/-- A keyword is made of letters, and is read as what it is. -/
theorem TokenKind.keywords_chars (hk : k ∈ keywords) :
    k.text.toList ≠ [] ∧ (∀ c ∈ k.text.toList, isWordStart c = true) ∧ ofWord k.text = k := by
  have hall : (keywords.all fun k => k.text.toList != [] &&
      (k.text.toList.all isWordStart && ofWord k.text == k)) = true := rfl
  simpa using List.all_eq_true.1 hall k hk

/-! ## Lexemes -/

namespace Lexeme

variable {l : Lexeme} {c : Char} {cs : List Char}

/-- The lexemes of the language. -/
inductive Legal : Lexeme → Prop where
  | name {w : String} : IsName w → Legal ⟨.identifier, w, w.toList⟩
  | keyword {k : TokenKind} : k ∈ TokenKind.keywords → Legal ⟨k, k.text, k.text.toList⟩
  | number {w : String} : w.toList ≠ [] → (∀ c ∈ w.toList, isDigit c = true) →
    Legal ⟨.number, w, w.toList⟩
  | symbol {k : TokenKind} : k ∈ TokenKind.symbols → Legal ⟨k, "", k.text.toList⟩

/-- What is illegal: a number that runs into a word, half of a symbol, and a character that no lexeme
    of the language starts with. -/
inductive Faulty : Lexeme → Prop where
  | malformed {digits : List Char} {c : Char} {cs : List Char} :
    digits ≠ [] → (∀ d ∈ digits, isDigit d = true) → isWordStart c = true →
    (∀ d ∈ cs, isWordChar d = true) →
    Faulty (.illegal (.malformedNumber (digits ++ c :: cs)) (digits ++ c :: cs))
  | singleBar : Faulty (.illegal .singleBar ['|'])
  | unexpected {c : Char} : isSpace c = false → (∀ l, Legal l → l.chars.head? ≠ some c) →
    Faulty (.illegal (.unexpected c) [c])

/-- A lexeme of the language, or an illegal one. -/
def Formed (l : Lexeme) : Prop := l.Legal ∨ l.Faulty

/-- No lexeme that the text starts with is longer. -/
def Longest (l : Lexeme) (cs : List Char) : Prop :=
  ∀ l', Formed l' → l'.chars <+: cs → l'.chars.length ≤ l.chars.length

/-- A lexeme of the language is made of word characters, or it is a symbol. -/
theorem Legal.chars_cases (h : l.Legal) : (l.chars ≠ [] ∧ ∀ c ∈ l.chars, isWordChar c = true) ∨
    ∃ k ∈ TokenKind.symbols, l.chars = k.text.toList := by
  cases h with
  | @name w hw =>
    obtain ⟨c, cs, hcs, -⟩ := hw.start
    exact .inl ⟨by simp [hcs], hw.chars⟩
  | keyword hk =>
    obtain ⟨hne, hchars, -⟩ := TokenKind.keywords_chars hk
    exact .inl ⟨hne, fun c hc => isWordChar_of_isWordStart (hchars c hc)⟩
  | number hne hdigits => exact .inl ⟨hne, fun c hc => isWordChar_of_isDigit (hdigits c hc)⟩
  | @symbol k hk => exact .inr ⟨k, hk, rfl⟩

/-- An illegal lexeme is made of word characters, or it is one character that is no white space. -/
theorem Formed.chars_cases (h : l.Formed) : (l.chars ≠ [] ∧ ∀ c ∈ l.chars, isWordChar c = true) ∨
    (∃ k ∈ TokenKind.symbols, l.chars = k.text.toList) ∨
    ∃ c, l.chars = [c] ∧ isSpace c = false := by
  rcases h with h | h
  · rcases h.chars_cases with hword | hsymbol
    · exact .inl hword
    · exact .inr (.inl hsymbol)
  · cases h with
    | malformed hne hdigits hc hcs =>
      refine .inl ⟨by simp [illegal], ?_⟩
      simp only [illegal, List.forall_mem_append, List.forall_mem_cons]
      exact ⟨fun d hd => isWordChar_of_isDigit (hdigits d hd), isWordChar_of_isWordStart hc, hcs⟩
    | singleBar => exact .inr (.inr ⟨'|', rfl, rfl⟩)
    | @unexpected c hspace => exact .inr (.inr ⟨c, rfl, hspace⟩)

theorem Formed.chars_ne_nil (h : l.Formed) : l.chars ≠ [] := by
  rcases h.chars_cases with ⟨hne, -⟩ | ⟨k, hk, hchars⟩ | ⟨c, hchars, -⟩
  · exact hne
  · exact hchars ▸ (TokenKind.symbols_chars hk).1
  · simp [hchars]

theorem Formed.isSpace_of_mem (h : l.Formed) : ∀ c ∈ l.chars, isSpace c = false := by
  rcases h.chars_cases with ⟨-, hword⟩ | ⟨k, hk, hchars⟩ | ⟨c, hchars, hspace⟩
  · exact fun c hc => isSpace_of_isWordChar (hword c hc)
  · exact hchars ▸ fun c hc => ((TokenKind.symbols_chars hk).2 c hc).1
  · simpa [hchars] using hspace

theorem Legal.isLast (h : l.Legal) : l.kind.isLast = false := by
  have hkeywords : ∀ k ∈ TokenKind.keywords, k.isLast = false := by decide
  have hsymbols : ∀ k ∈ TokenKind.symbols, k.isLast = false := by decide
  cases h with
  | name | number => rfl
  | keyword hk => exact hkeywords _ hk
  | symbol hk => exact hsymbols _ hk

theorem Faulty.kind (h : l.Faulty) : l.kind = .illegal := by
  cases h <;> rfl

/-! ## The first lexeme of a text -/

/-- A word is a keyword or a name. -/
theorem legal_word {w : String} (hstart : ∃ c cs, w.toList = c :: cs ∧ isWordStart c = true)
    (hchars : ∀ c ∈ w.toList, isWordChar c = true) : Legal ⟨.ofWord w, w, w.toList⟩ := by
  cases hfind : TokenKind.keywords.find? (·.text == w) with
  | none =>
    have hkind : TokenKind.ofWord w = .identifier := by rw [TokenKind.ofWord, hfind]; rfl
    rw [hkind]
    exact .name ⟨hstart, hchars, hkind⟩
  | some k =>
    have hkind : TokenKind.ofWord w = k := by rw [TokenKind.ofWord, hfind]; rfl
    have htext : k.text = w := by simpa using List.find?_some hfind
    rw [hkind, ← htext]
    exact .keyword (List.mem_of_find?_eq_some hfind)

theorem formed_number (h : isDigit c = true) : (number (c :: cs)).Formed := by
  have hdigits : ∀ d ∈ (c :: cs).takeWhile isDigit, isDigit d = true :=
    fun _ hd => List.mem_takeWhile_imp hd
  have hne : (c :: cs).takeWhile isDigit ≠ [] := by simp [h]
  unfold number
  split
  next hstart =>
    obtain ⟨d, hd, hword⟩ := Option.map_eq_some_iff.1 hstart
    obtain ⟨ds, hds⟩ := List.head?_eq_some_iff.1 hd
    have htake : (c :: cs).takeWhile isWordChar =
        (c :: cs).takeWhile isDigit ++ d :: ds.takeWhile isWordChar := by
      conv_lhs => rw [← List.takeWhile_append_dropWhile (p := isDigit) (l := c :: cs), hds]
      rw [List.takeWhile_append_of_pos fun e he => isWordChar_of_isDigit (hdigits e he),
        List.takeWhile_cons_of_pos (isWordChar_of_isWordStart hword)]
    rw [htake]
    exact .inr (.malformed hne hdigits hword fun _ he => List.mem_takeWhile_imp he)
  next =>
    have hlegal := Legal.number (w := String.ofList ((c :: cs).takeWhile isDigit))
      (by simpa using hne) (by simpa using hdigits)
    rw [String.toList_ofList] at hlegal
    exact .inl hlegal

theorem Legal.head?_ne (h : l.Legal) (hword : isWordChar c = false)
    (hsymbol : ∀ k ∈ TokenKind.symbols, k.text.toList.head? ≠ some c) : l.chars.head? ≠ some c := by
  intro hhead
  rcases h.chars_cases with ⟨-, hchars⟩ | ⟨k, hk, hchars⟩
  · rw [hchars c (List.mem_of_head? hhead)] at hword
    contradiction
  · exact hsymbol k hk (hchars ▸ hhead)

/-- What is read where no word and no number starts: a symbol, a bar on its own, or a character that
    starts no symbol. -/
theorem symbol_cases (c : Char) (cs : List Char) :
    (∃ k ∈ TokenKind.symbols, symbol c cs = ⟨k, "", k.text.toList⟩ ∧ k.text.toList <+: c :: cs) ∨
    (c = '|' ∧ symbol c cs = illegal .singleBar ['|']) ∨
    ((∀ k ∈ TokenKind.symbols, k.text.toList.head? ≠ some c) ∧
      symbol c cs = illegal (.unexpected c) [c]) := by
  -- all but the last two cases of the reader are symbols
  fun_cases symbol c cs with
  | case23 => exact .inr (.inl ⟨rfl, rfl⟩)
  | case24 =>
    refine .inr (.inr ⟨?_, rfl⟩)
    have hall : ∀ k ∈ TokenKind.symbols, k.text.toList.head? ∈ ['(', ')', '\x7b', '\x7d', ';', ',',
        '+', '-', '*', '/', '%', '=', '!', '<', '>', '&', '|'].map some := by decide
    intro k hk hhead
    have hmem := hall k hk
    rw [hhead] at hmem
    simp_all
  | _ => exact .inl ⟨_, by decide, rfl, ⟨_, rfl⟩⟩

/-- A symbol that the text starts with is not longer than the one that is read. -/
theorem length_le_symbol (hk : k ∈ TokenKind.symbols)
    (h : k.text.toList <+: c :: cs) : k.text.toList.length ≤ (symbol c cs).chars.length := by
  have hpos := List.length_pos_iff.2 (symbol_chars_ne_nil c cs)
  obtain ⟨rest, hrest⟩ := h
  cases k with
  | andAnd | orOr | equal | notEqual | lessEqual | greaterEqual =>
    cases hrest
    exact le_rfl
  | endOfFile | illegal | identifier | number | unknown => simp [TokenKind.symbols] at hk
  | kwInt | kwBoolean | kwVoid | kwIf | kwElse | kwWhile | kwFor | kwBreak | kwContinue | kwReturn
  | kwTrue | kwFalse => simp [TokenKind.symbols] at hk
  | _ => exact hpos

/-- A number is a run of digits, or the whole word if that goes on with a letter or `_`. -/
theorem number_chars (cs : List Char) :
    ((∃ c ∈ (cs.dropWhile isDigit).head?, isWordStart c = true) ∧
      (number cs).chars = cs.takeWhile isWordChar) ∨
    ((∀ c ∈ (cs.dropWhile isDigit).head?, isWordStart c = false) ∧
      (number cs).chars = cs.takeWhile isDigit) := by
  unfold number
  split
  next hstart =>
    obtain ⟨c, hc, hword⟩ := Option.map_eq_some_iff.1 hstart
    exact .inl ⟨⟨c, hc, hword⟩, rfl⟩
  next hstart =>
    refine .inr ⟨fun c hc => ?_, rfl⟩
    cases hword : isWordStart c with
    | false => rfl
    | true => exact absurd (Option.map_eq_some_iff.2 ⟨c, hc, hword⟩) hstart

/-- The lexeme that is read at the beginning of a text is part of it. -/
theorem ofChars_prefix (cs : List Char) : (ofChars cs).chars <+: cs := by
  cases cs with
  | nil => exact List.nil_prefix
  | cons c cs =>
    rw [ofChars]
    split
    · exact List.takeWhile_prefix _
    split
    · rcases number_chars (c :: cs) with ⟨-, h⟩ | ⟨-, h⟩ <;> exact h ▸ List.takeWhile_prefix _
    · rcases symbol_cases c cs with ⟨k, -, h, hleads⟩ | ⟨rfl, h⟩ | ⟨-, h⟩
      · exact h ▸ hleads
      · exact h ▸ ⟨cs, rfl⟩
      · exact h ▸ ⟨cs, rfl⟩

theorem formed_ofChars (cs : List Char) (hspace : isSpace c = false) :
    (ofChars (c :: cs)).Formed := by
  rw [ofChars]
  split
  next hstart =>
    have htake : (c :: cs).takeWhile isWordChar = c :: cs.takeWhile isWordChar :=
      List.takeWhile_cons_of_pos (isWordChar_of_isWordStart hstart)
    have hlegal := legal_word (w := String.ofList ((c :: cs).takeWhile isWordChar))
      ⟨c, _, by rw [String.toList_ofList, htake], hstart⟩
      fun d hd => List.mem_takeWhile_imp (String.toList_ofList ▸ hd)
    rw [String.toList_ofList] at hlegal
    exact .inl hlegal
  next hstart =>
    split
    next hdigit => exact formed_number hdigit
    next hdigit =>
      have hword := isWordChar_eq_false hstart hdigit
      rcases symbol_cases c cs with ⟨k, hk, h, -⟩ | ⟨-, h⟩ | ⟨hsymbol, h⟩
      · exact h ▸ .inl (.symbol hk)
      · exact h ▸ .inr .singleBar
      · exact h ▸ .inr (.unexpected hspace fun l hl => hl.head?_ne hword hsymbol)

theorem length_le_takeWhile {f : Char → Bool} {ds : List Char} (h : ds <+: cs)
    (hds : ∀ d ∈ ds, f d = true) : ds.length ≤ (cs.takeWhile f).length := by
  obtain ⟨rest, rfl⟩ := h
  rw [List.takeWhile_append_of_pos hds, List.length_append]
  omega

theorem Formed.isWordChar_of_head (h : l.Formed) (hc : l.chars.head? = some c)
    (hword : isWordChar c = true) : ∀ d ∈ l.chars, isWordChar d = true := by
  rcases h.chars_cases with ⟨-, hchars⟩ | ⟨k, hk, hchars⟩ | ⟨d, hchars, -⟩
  · exact hchars
  · have hnot := ((TokenKind.symbols_chars hk).2 c (hchars ▸ List.mem_of_head? hc)).2
    rw [hword] at hnot
    contradiction
  · rw [hchars] at hc ⊢
    cases hc
    simpa using hword

/-- A lexeme that starts with a digit is a number, or a malformed one. -/
theorem Formed.digits_of_head (h : l.Formed) (hc : l.chars.head? = some c)
    (hdigit : isDigit c = true) : (∀ d ∈ l.chars, isDigit d = true) ∨
      ∃ digits d ds, l.chars = digits ++ d :: ds ∧ (∀ e ∈ digits, isDigit e = true) ∧
        isWordStart d = true := by
  have hmem := List.mem_of_head? hc
  have hstart := isWordStart_of_isDigit hdigit
  rcases h with h | h
  · cases h with
    | name hw =>
      obtain ⟨d, ds, hds, hd⟩ := hw.start
      rw [hds] at hc
      cases hc
      rw [hstart] at hd
      contradiction
    | keyword hk =>
      have hletter := (TokenKind.keywords_chars hk).2.1 c hmem
      rw [hstart] at hletter
      contradiction
    | number _ hdigits => exact .inl hdigits
    | symbol hk =>
      have hnot := ((TokenKind.symbols_chars hk).2 c hmem).2
      rw [isWordChar_of_isDigit hdigit] at hnot
      contradiction
  · cases h with
    | malformed _ hdigits hd _ => exact .inr ⟨_, _, _, rfl, hdigits, hd⟩
    | singleBar | unexpected =>
      cases hc
      exact .inl (by simpa [illegal] using hdigit)

/-- A letter after the digits of a text is what the text goes on with after them. -/
theorem head?_dropWhile_isDigit {digits : List Char} {text : List Char}
    (hdigits : ∀ d ∈ digits, isDigit d = true) (hc : isWordStart c = true)
    (h : digits ++ c :: cs <+: text) : (text.dropWhile isDigit).head? = some c := by
  have hstop : isDigit c = false := by
    by_contra hdigit
    rw [Bool.not_eq_false] at hdigit
    rw [isWordStart_of_isDigit hdigit] at hc
    contradiction
  obtain ⟨rest, rfl⟩ := h
  rw [List.append_assoc, List.dropWhile_append_of_pos hdigits, List.cons_append,
    List.dropWhile_cons_of_neg (by simp [hstop])]
  rfl

theorem head?_eq_of_leads (h : l.Formed) (hleads : l.chars <+: c :: cs) :
    l.chars.head? = some c := by
  obtain ⟨d, ds, hds⟩ := List.exists_cons_of_ne_nil h.chars_ne_nil
  obtain ⟨rest, hrest⟩ := hleads
  rw [hds] at hrest ⊢
  cases hrest
  rfl

theorem longest_number (cs : List Char) (hdigit : isDigit c = true) :
    (number (c :: cs)).Longest (c :: cs) := by
  intro l hl hleads
  have hhead := head?_eq_of_leads hl hleads
  rcases number_chars (c :: cs) with ⟨-, hchars⟩ | ⟨hfollow, hchars⟩
  · rw [hchars]
    exact length_le_takeWhile hleads (hl.isWordChar_of_head hhead (isWordChar_of_isDigit hdigit))
  · rw [hchars]
    rcases hl.digits_of_head hhead hdigit with hdigits | ⟨digits, d, ds, hl, hdigits, hd⟩
    · exact length_le_takeWhile hleads hdigits
    · -- a malformed number would have been seen
      have hnot := hfollow d (head?_dropWhile_isDigit hdigits hd (hl ▸ hleads))
      rw [hd] at hnot
      contradiction

/-- No lexeme that a text starts with is longer than the one that is read. -/
theorem longest_ofChars (c : Char) (cs : List Char) : (ofChars (c :: cs)).Longest (c :: cs) := by
  rw [ofChars]
  split
  next hstart =>
    intro l hl hleads
    have hword := isWordChar_of_isWordStart hstart
    exact length_le_takeWhile hleads (hl.isWordChar_of_head (head?_eq_of_leads hl hleads) hword)
  next hstart =>
    split
    next hdigit => exact longest_number cs hdigit
    next hdigit =>
      intro l hl hleads
      have hpos := List.length_pos_iff.2 (symbol_chars_ne_nil c cs)
      rcases hl.chars_cases with ⟨-, hword⟩ | ⟨k, hk, hchars⟩ | ⟨d, hchars, -⟩
      · have hc := hword c (List.mem_of_head? (head?_eq_of_leads hl hleads))
        rw [isWordChar_eq_false hstart hdigit] at hc
        contradiction
      · rw [hchars] at hleads ⊢
        exact length_le_symbol hk hleads
      · rw [hchars]
        exact hpos

/-! ## Longest lexemes -/

theorem ofChars_malformed {digits : List Char} (hne : digits ≠ [])
    (hdigits : ∀ d ∈ digits, isDigit d = true) (hc : isWordStart c = true)
    (hcs : ∀ d ∈ cs, isWordChar d = true) : ofChars (digits ++ c :: cs) =
      illegal (.malformedNumber (digits ++ c :: cs)) (digits ++ c :: cs) := by
  have hnumber : ofChars (digits ++ c :: cs) = number (digits ++ c :: cs) := by
    obtain ⟨d, ds, hds⟩ := List.exists_cons_of_ne_nil hne
    have hd := hdigits d (by simp [hds])
    rw [hds, List.cons_append, ofChars, if_neg (by simp [isWordStart_of_isDigit hd]), if_pos hd]
  have hword : ∀ d ∈ digits ++ c :: cs, isWordChar d = true := by
    simp only [List.forall_mem_append, List.forall_mem_cons]
    exact ⟨fun d hd => isWordChar_of_isDigit (hdigits d hd), isWordChar_of_isWordStart hc, hcs⟩
  rw [hnumber, number, head?_dropWhile_isDigit hdigits hc List.prefix_rfl,
    List.takeWhile_eq_self_iff.2 hword, Option.map_some, hc]

theorem ofChars_unexpected (h : ∀ l, Legal l → l.chars.head? ≠ some c) :
    ofChars [c] = illegal (.unexpected c) [c] := by
  have hstart : ¬ isWordStart c = true := fun hc => by
    have hlegal := legal_word (w := String.ofList [c]) ⟨c, [], by simp, hc⟩
      (by simpa using isWordChar_of_isWordStart hc)
    exact h _ hlegal (by simp)
  have hdigit : ¬ isDigit c = true := fun hc => by
    have hlegal := Legal.number (w := String.ofList [c]) (by simp) (by simpa using hc)
    exact h _ hlegal (by simp)
  have hsymbol {k : TokenKind} (hk : k ∈ TokenKind.symbols) : k.text.toList.head? ≠ some c :=
    h _ (.symbol hk)
  rw [ofChars, if_neg hstart, if_neg hdigit]
  rcases symbol_cases c [] with ⟨k, hk, -, hleads⟩ | ⟨rfl, -⟩ | ⟨-, hread⟩
  · exact absurd (head?_eq_of_leads (.inl (.symbol hk)) hleads) (hsymbol hk)
  · exact absurd rfl (hsymbol (k := .orOr) (by decide))
  · exact hread

/-- A lexeme is read back from its characters. -/
theorem Formed.ofChars_chars (h : l.Formed) : ofChars l.chars = l := by
  rcases h with h | h
  · cases h with
    | @name w hw =>
      have hread := ofChars_word hw.start hw.chars breaks_nil
      rwa [List.append_nil, hw.kind] at hread
    | @keyword k hk =>
      obtain ⟨hne, hchars, hkind⟩ := TokenKind.keywords_chars hk
      obtain ⟨c, cs, hcs⟩ := List.exists_cons_of_ne_nil hne
      have hread := ofChars_word ⟨c, cs, hcs, hchars c (by simp [hcs])⟩
        (fun d hd => isWordChar_of_isWordStart (hchars d hd)) breaks_nil
      rwa [List.append_nil, hkind] at hread
    | @number w hne hdigits =>
      have hread := ofChars_number hne
        (fun c hc => ⟨hdigits c hc, isWordStart_of_isDigit (hdigits c hc)⟩) breaks_nil
      rwa [List.append_nil] at hread
    | @symbol k hk =>
      have hread : ofChars (k.text.toList ++ []) = ⟨k, "", k.text.toList⟩ :=
        ofChars_symbol hk (by simp)
      rwa [List.append_nil] at hread
  · cases h with
    | malformed hne hdigits hc hcs => exact ofChars_malformed hne hdigits hc hcs
    | singleBar => rfl
    | unexpected _ hlegal => exact ofChars_unexpected hlegal

/-- The longest lexeme that a text starts with is the one that is read. -/
theorem Formed.ofChars_eq (h : l.Formed) {rest : List Char} (hlongest : l.Longest (l.chars ++ rest)) :
    ofChars (l.chars ++ rest) = l := by
  obtain ⟨c, cs, hcs⟩ := List.exists_cons_of_ne_nil h.chars_ne_nil
  have htext : l.chars ++ rest = c :: (cs ++ rest) := by rw [hcs]; rfl
  have hspace : isSpace c = false := h.isSpace_of_mem c (by simp [hcs])
  have hformed := htext ▸ formed_ofChars (cs ++ rest) hspace
  have hread := htext ▸ longest_ofChars c (cs ++ rest)
  have hleads := ofChars_prefix (l.chars ++ rest)
  -- each of the two is among those that the other is the longest of
  have hlength : (ofChars (l.chars ++ rest)).chars.length = l.chars.length :=
    le_antisymm (hlongest _ hformed hleads) (hread l h (List.prefix_append _ _))
  have hchars : (ofChars (l.chars ++ rest)).chars = l.chars :=
    (List.prefix_of_prefix_length_le hleads (List.prefix_append _ _) hlength.le).eq_of_length hlength
  rw [← hformed.ofChars_chars, hchars, h.ofChars_chars]

end Lexeme
end MiniCompiler
