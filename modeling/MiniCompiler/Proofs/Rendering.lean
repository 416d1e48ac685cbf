import MiniCompiler.Proofs.Lexemes

/-!
# Scanning a text piece by piece

A text that is put together from words, numbers, symbols and spaces is scanned into their tokens if
no piece runs into the next. `Scans` says what a part of a text is scanned into wherever it stands;
there is one rule for each kind of piece, and each asks only what may follow that piece.
-/

namespace MiniCompiler

variable {cs rest : List Char} {c : Char} {k : TokenKind}

open Text

/-! ## One token -/

/-- A text that starts with neither white space nor a comment. -/
def Solid (cs : List Char) : Prop :=
  ∀ lineComments p, skipGapFrom lineComments .space cs p = (⟨cs, p⟩, none)

theorem solid_cons (hspace : isSpace c = false)
    (hslash : c = '/' → ∀ d ∈ cs.head?, d ≠ '*' ∧ d ≠ '/') : Solid (c :: cs) := by
  intro lineComments p
  rw [skipGapFrom, if_neg (by simp [hspace])]
  · rintro ds rfl rfl
    exact (hslash rfl '*' rfl).1 rfl
  · rintro ds rfl rfl
    exact (hslash rfl '/' rfl).2 rfl

theorem solid_of_isWordChar (h : isWordChar c = true) : Solid (c :: cs) := by
  have hother : ([' ', '\t', '\n', '\r', '\x0c', '/'].all fun d => !isWordChar d) = true := rfl
  have hne : ∀ d ∈ [' ', '\t', '\n', '\r', '\x0c', '/'], c ≠ d := by
    rintro d hd rfl
    have hc := List.all_eq_true.1 hother c hd
    simp [h] at hc
  refine solid_cons ?_ fun hc => absurd hc (hne '/' (by simp))
  simp only [List.forall_mem_cons] at hne
  simp [isSpace, hne]

theorem Cursor.tokens_lexeme {o : ScanOptions} {p : Place} {l : Lexeme} (hsolid : Solid cs)
    (hl : Lexeme.ofChars cs = l) (hlast : l.kind.isLast = false) :
    Cursor.tokens o ⟨cs, p⟩ = l.token o.file p ::
      Cursor.tokens o ⟨cs.drop l.chars.length, p.afterAll l.chars⟩ := by
  have hnext : Cursor.next o ⟨cs, p⟩ =
      (l.token o.file p, ⟨cs.drop l.chars.length, p.afterAll l.chars⟩) := by
    simp only [Cursor.next, Cursor.skipGap, hsolid o.lineComments p, hl]
  have hgoes : (l.token o.file p).kind.isLast = false := hlast
  rw [Cursor.tokens]
  simp only [hnext, hgoes]
  rfl

theorem Cursor.tokens_space {o : ScanOptions} {p : Place} (h : isSpace c = true) :
    Cursor.tokens o ⟨c :: cs, p⟩ = Cursor.tokens o ⟨cs, p.after c⟩ := by
  have hskip : skipGapFrom o.lineComments .space (c :: cs) p =
      skipGapFrom o.lineComments .space cs (p.after c) := by
    rw [skipGapFrom, if_pos h]
    all_goals
      rintro _ rfl
      cases h
  have hnext : Cursor.next o ⟨c :: cs, p⟩ = Cursor.next o ⟨cs, p.after c⟩ := by
    simp only [Cursor.next, Cursor.skipGap, hskip]
  rw [Cursor.tokens, hnext, Cursor.tokens.eq_def o ⟨cs, p.after c⟩]

/-! ## Boundaries -/

/-- Characters that no token before them goes on with. -/
@[simp]
def breakChars : List Char := [' ', '\n', '(', ')', ';', ',']

/-- No token goes on into the text. -/
def Breaks (cs : List Char) : Prop := ∀ c ∈ cs.head?, c ∈ breakChars

@[simp]
theorem breaks_nil : Breaks [] := nofun

@[simp]
theorem breaks_cons : Breaks (c :: cs) ↔ c ∈ breakChars := by
  simp [Breaks]

theorem Breaks.append {ds : List Char} (hcs : Breaks cs) (hds : Breaks ds) : Breaks (cs ++ ds) := by
  cases cs with
  | nil => exact hds
  | cons c cs => exact hcs

theorem isWordChar_of_mem_breakChars : ∀ c ∈ breakChars, isWordChar c = false := by
  have hall : (breakChars.all fun c => !isWordChar c) = true := rfl
  intro c hc
  simpa using List.all_eq_true.1 hall c hc

/-- The characters that would make a longer symbol or a comment of a symbol. -/
def TokenKind.glue : TokenKind → List Char
  | .assign | .not | .less | .greater => ['=']
  | .ampersand => ['&']
  | .slash => ['*', '/']
  | _ => []

theorem TokenKind.not_mem_glue_of_mem_breakChars (k : TokenKind) :
    ∀ c ∈ breakChars, c ∉ k.glue := by
  intro c hc
  simp only [breakChars, List.mem_cons, List.not_mem_nil, or_false] at hc
  obtain rfl | rfl | rfl | rfl | rfl | rfl := hc <;> cases k <;> simp [glue]

/-! ## Lexemes -/

theorem takeWhile_append_break {f : Char → Bool} (hf : ∀ c ∈ breakChars, f c = false)
    (hcs : ∀ c ∈ cs, f c = true) (hrest : Breaks rest) : (cs ++ rest).takeWhile f = cs := by
  rw [List.takeWhile_append_of_pos hcs]
  cases rest with
  | nil => simp
  | cons c rest => rw [List.takeWhile_cons_of_neg (by simp [hf c (breaks_cons.1 hrest)]), List.append_nil]

theorem Lexeme.ofChars_word {w : String}
    (hstart : ∃ c cs, w.toList = c :: cs ∧ isWordStart c = true)
    (hchars : ∀ c ∈ w.toList, isWordChar c = true) (hrest : Breaks rest) :
    Lexeme.ofChars (w.toList ++ rest) = ⟨.ofWord w, w, w.toList⟩ := by
  have htake := takeWhile_append_break isWordChar_of_mem_breakChars hchars hrest
  obtain ⟨c, cs, hw, hc⟩ := hstart
  have hof : Lexeme.ofChars (w.toList ++ rest) =
      .word ((w.toList ++ rest).takeWhile isWordChar) := by
    rw [hw, List.cons_append, Lexeme.ofChars, if_pos hc]
  rw [hof, htake, Lexeme.word, String.ofList_toList]

theorem isDigit_of_decimal (h : c.isDigit = true) : isDigit c = true ∧ isWordStart c = false := by
  have hall : ((List.range' 48 10).all fun n =>
      isDigit (Char.ofNat n) && !isWordStart (Char.ofNat n)) = true := rfl
  have hc : 48 ≤ c.toNat ∧ c.toNat ≤ 57 := by
    simp only [Char.isDigit, Bool.and_eq_true, decide_eq_true_eq, ge_iff_le,
      UInt32.le_iff_toNat_le] at h
    exact h
  have hdigit := List.all_eq_true.1 hall c.toNat (by simp only [List.mem_range'_1]; omega)
  rw [Char.ofNat_toNat] at hdigit
  simpa using hdigit

theorem Lexeme.ofChars_number {w : String} (hne : w.toList ≠ [])
    (hdigits : ∀ c ∈ w.toList, isDigit c = true ∧ isWordStart c = false) (hrest : Breaks rest) :
    Lexeme.ofChars (w.toList ++ rest) = ⟨.number, w, w.toList⟩ := by
  have hdigit : ∀ c ∈ breakChars, isDigit c = false := fun c hc => by
    have hword := isWordChar_of_mem_breakChars c hc
    simp only [isWordChar, Bool.or_eq_false_iff] at hword
    exact hword.1.2
  have hstart : ∀ c ∈ rest.head?, isWordStart c = false := fun c hc => by
    have hword := isWordChar_of_mem_breakChars c (hrest c hc)
    simp only [isWordChar, Bool.or_eq_false_iff] at hword
    simp [isWordStart, hword]
  have htake : (w.toList ++ rest).takeWhile isDigit = w.toList :=
    takeWhile_append_break hdigit (fun c hc => (hdigits c hc).1) hrest
  have hdrop : (w.toList ++ rest).dropWhile isDigit = rest := by
    have hboth := List.takeWhile_append_dropWhile (p := isDigit) (l := w.toList ++ rest)
    rw [htake] at hboth
    exact List.append_cancel_left hboth
  have hof : Lexeme.ofChars (w.toList ++ rest) = .number (w.toList ++ rest) := by
    obtain ⟨c, cs, hw⟩ := List.exists_cons_of_ne_nil hne
    have hc := hdigits c (by simp [hw])
    rw [hw, List.cons_append, Lexeme.ofChars, if_neg (by simp [hc.2]), if_pos hc.1]
  rw [hof, Lexeme.number, htake, hdrop, String.ofList_toList]
  cases rest with
  | nil => rfl
  | cons c rest => simp [hstart c rfl]

/-- The kinds of operators and punctuation. -/
def TokenKind.symbols : List TokenKind :=
  [.leftParen, .rightParen, .leftBrace, .rightBrace, .semicolon, .comma, .assign, .plus, .minus,
   .star, .slash, .percent, .ampersand, .andAnd, .orOr, .not, .equal, .notEqual, .less, .greater,
   .lessEqual, .greaterEqual]

/-- A symbol ends before a character that makes no longer symbol of it. -/
theorem Lexeme.ofChars_symbol (hk : k ∈ TokenKind.symbols) (hrest : ∀ c ∈ rest.head?, c ∉ k.glue) :
    Lexeme.ofChars (k.text.toList ++ rest) = ⟨k, "", k.text.toList⟩ := by
  have hall : (['=', '!', '<', '>', '&'].all fun c => !isWordStart c && !isDigit c) = true := rfl
  have hsign := List.all_eq_true.1 hall
  simp only [Bool.and_eq_true, Bool.not_eq_true'] at hsign
  cases k with
  | assign | not | less | greater | ampersand =>
    cases rest with
    | nil => rfl
    | cons c rest =>
      have hc := hrest c rfl
      simp only [TokenKind.glue, List.mem_singleton] at hc
      simp [TokenKind.text, Lexeme.ofChars, hsign, Lexeme.symbol, hc]
  | endOfFile | illegal | identifier | number | unknown => simp [TokenKind.symbols] at hk
  | kwInt | kwBoolean | kwVoid | kwIf | kwElse | kwWhile | kwFor | kwBreak | kwContinue | kwReturn
  | kwTrue | kwFalse => simp [TokenKind.symbols] at hk
  | _ => rfl

theorem solid_symbol (hk : k ∈ TokenKind.symbols)
    (hrest : ∀ c ∈ rest.head?, c ∉ k.glue) : Solid (k.text.toList ++ rest) := by
  have hall : (TokenKind.symbols.all fun k =>
      k == .slash || k.text.toList.head?.any fun c => !isSpace c && c != '/') = true := rfl
  have hchars := List.all_eq_true.1 hall k hk
  simp only [Bool.or_eq_true, beq_iff_eq, Option.any_eq_true, Bool.and_eq_true,
    Bool.not_eq_true', bne_iff_ne] at hchars
  obtain rfl | ⟨c, hc, hspace, hslash⟩ := hchars
  · refine solid_cons rfl fun _ d hd => ?_
    have hd := hrest d hd
    simpa [TokenKind.glue] using hd
  · obtain ⟨cs, hcs⟩ := List.head?_eq_some_iff.1 hc
    rw [hcs]
    exact solid_cons hspace fun h => absurd h hslash

/-! ## Pieces -/

/-- Before a break, `cs` is scanned into tokens of which `P` holds. -/
def Scans (o : ScanOptions) (cs : List Char) (P : List Token → Prop) : Prop :=
  ∀ p, ∃ ts, P ts ∧ ∀ rest, Breaks rest →
    Cursor.tokens o ⟨cs ++ rest, p⟩ = ts ++ Cursor.tokens o ⟨rest, p.afterAll cs⟩

/-- A token of this kind and value, and then tokens of which `P` holds. -/
def Lead (k : TokenKind) (value : String) (P : List Token → Prop) (ts : List Token) : Prop :=
  ∃ pos us, ts = ⟨k, value, pos⟩ :: us ∧ P us

/-- Tokens of which `P` holds, and then tokens of which `Q` holds. -/
def Joint (P Q : List Token → Prop) (ts : List Token) : Prop :=
  ∃ us vs, ts = us ++ vs ∧ P us ∧ Q vs

namespace Scans

variable {o : ScanOptions} {cs ds : List Char} {P Q : List Token → Prop}

theorem mono (h : Scans o cs P) (hPQ : ∀ ts, P ts → Q ts) : Scans o cs Q := by
  intro p
  obtain ⟨ts, hts, hscan⟩ := h p
  exact ⟨ts, hPQ ts hts, hscan⟩

theorem nil : Scans o [] (· = []) := fun _ => ⟨[], rfl, fun _ _ => rfl⟩

theorem append (hcs : Scans o cs P) (hbreaks : Breaks ds) (hds : Scans o ds Q) :
    Scans o (cs ++ ds) (Joint P Q) := by
  intro p
  obtain ⟨ts, hts, hscan⟩ := hcs p
  obtain ⟨us, hus, hscan'⟩ := hds (p.afterAll cs)
  refine ⟨ts ++ us, ⟨ts, us, rfl, hts, hus⟩, ?_⟩
  intro rest hrest
  rw [List.append_assoc, hscan _ (hbreaks.append hrest), hscan' rest hrest, List.append_assoc,
    Place.afterAll_append]

theorem space {c : Char} (hc : isSpace c = true) (h : Scans o cs P) : Scans o (c :: cs) P := by
  intro p
  obtain ⟨ts, hts, hscan⟩ := h (p.after c)
  refine ⟨ts, hts, ?_⟩
  intro rest hrest
  rw [List.cons_append, Cursor.tokens_space hc]
  exact hscan rest hrest

theorem lexeme {l : Lexeme} (hlast : l.kind.isLast = false)
    (hl : ∀ rest, Breaks rest → Lexeme.ofChars (l.chars ++ (cs ++ rest)) = l)
    (hsolid : ∀ rest, Breaks rest → Solid (l.chars ++ (cs ++ rest))) (h : Scans o cs P) :
    Scans o (l.chars ++ cs) (Lead l.kind l.value P) := by
  intro p
  obtain ⟨ts, hts, hscan⟩ := h (p.afterAll l.chars)
  refine ⟨l.token o.file p :: ts, ⟨p.pos o.file l.chars.length, ts, rfl, hts⟩, ?_⟩
  intro rest hrest
  rw [List.append_assoc, Cursor.tokens_lexeme (hsolid rest hrest) (hl rest hrest) hlast,
    List.drop_left, hscan rest hrest, Place.afterAll_append]
  rfl

theorem word {w : String} (hstart : ∃ c cs, w.toList = c :: cs ∧ isWordStart c = true)
    (hchars : ∀ c ∈ w.toList, isWordChar c = true) (hbreaks : Breaks cs) (h : Scans o cs P) :
    Scans o (w.toList ++ cs) (Lead (.ofWord w) w P) := by
  have hlast : ∀ k ∈ .identifier :: TokenKind.keywords, k.isLast = false := by decide
  refine lexeme (l := ⟨.ofWord w, w, w.toList⟩) (hlast _ (TokenKind.ofWord_mem w)) ?_ ?_ h
  · exact fun rest hrest => Lexeme.ofChars_word hstart hchars (hbreaks.append hrest)
  · intro rest _
    obtain ⟨c, cs', hw, hc⟩ := hstart
    rw [hw]
    exact solid_of_isWordChar (isWordChar_of_isWordStart hc)

theorem name {x : String} (hx : IsName x) (hbreaks : Breaks cs) (h : Scans o cs P) :
    Scans o (x.toList ++ cs) (Lead .identifier x P) := by
  have hword := word hx.start hx.chars hbreaks h
  rwa [hx.kind] at hword

theorem keyword (hk : k ∈ TokenKind.keywords) (hbreaks : Breaks cs)
    (h : Scans o cs P) : Scans o (k.text.toList ++ cs) (Lead k k.text P) := by
  have hall : (TokenKind.keywords.all fun k => k.text.toList != [] &&
      k.text.toList.all isWordStart && TokenKind.ofWord k.text == k) = true := rfl
  have hword := List.all_eq_true.1 hall k hk
  simp only [Bool.and_eq_true, bne_iff_ne, List.all_eq_true, beq_iff_eq] at hword
  obtain ⟨⟨hne, hchars⟩, hkind⟩ := hword
  obtain ⟨c, cs', hc⟩ := List.exists_cons_of_ne_nil hne
  have hscan := word ⟨c, cs', hc, hchars c (by simp [hc])⟩
    (fun d hd => isWordChar_of_isWordStart (hchars d hd)) hbreaks h
  rwa [hkind] at hscan

theorem number (n : Nat) (hbreaks : Breaks cs) (h : Scans o cs P) :
    Scans o (n.repr.toList ++ cs) (Lead .number n.repr P) := by
  have hdigits : ∀ c ∈ n.repr.toList, isDigit c = true ∧ isWordStart c = false :=
    fun c hc => isDigit_of_decimal (isDigit_of_mem_repr hc)
  refine lexeme (l := ⟨.number, n.repr, n.repr.toList⟩) rfl ?_ ?_ h
  · intro rest hrest
    exact Lexeme.ofChars_number (repr_ne_nil n) hdigits (hbreaks.append hrest)
  · intro rest _
    obtain ⟨c, cs', hc⟩ := List.exists_cons_of_ne_nil (repr_ne_nil n)
    simp only [hc] at hdigits ⊢
    exact solid_of_isWordChar (by simp [isWordChar, hdigits])

theorem symbol (hk : k ∈ TokenKind.symbols)
    (hfollow : ∀ rest, Breaks rest → ∀ c ∈ (cs ++ rest).head?, c ∉ k.glue) (h : Scans o cs P) :
    Scans o (k.text.toList ++ cs) (Lead k "" P) := by
  have hlast : ∀ k ∈ TokenKind.symbols, k.isLast = false := by decide
  refine lexeme (l := ⟨k, "", k.text.toList⟩) (hlast k hk) ?_ ?_ h
  · exact fun rest hrest => Lexeme.ofChars_symbol hk (hfollow rest hrest)
  · exact fun rest hrest => solid_symbol hk (hfollow rest hrest)

end Scans

end MiniCompiler
