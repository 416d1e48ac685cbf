import MiniCompiler.Proofs.CodeTotal
import MiniCompiler.Proofs.LexicalGrammar

/-!
# How a text is divided

A scan divides a text into gaps and lexemes. `Division` says what such a division is, by the lexical
grammar alone; every text has one, and it determines the tokens of the scan with their positions.
From this follows what is scanned from a text that was put together from lexemes and gaps, or from
two texts.

Main statements: `scan_divides`, `scan_rendered` and `Division.newline`.
-/

namespace MiniCompiler

open Text

/-! ## Places -/

/-- The place after a text: its line is counted by the newlines, its column from the last of them. -/
def Place.behind (before : List Char) : Place where
  line := 1 + before.count '\n'
  column := 1 + (before.reverse.takeWhile (· != '\n')).length

theorem Place.afterAll_start (before : List Char) : ({} : Place).afterAll before = .behind before := by
  induction before using List.reverseRecOn with
  | nil => rfl
  | append_singleton before c ih =>
    rw [Place.afterAll_append, ih]
    by_cases hc : c = '\n'
    · subst hc
      simp [afterAll, after, behind, Nat.add_assoc]
    · simp [afterAll, after, behind, hc, Nat.add_assoc]

theorem Place.afterAll_behind (before cs : List Char) :
    (Place.behind before).afterAll cs = .behind (before ++ cs) := by
  rw [← Place.afterAll_start, ← Place.afterAll_start, Place.afterAll_append]

/-! ## Passing over gaps -/

variable {lineComments : Bool}
variable {cs text body gap : List Char} {pieces : List Piece} {o : ScanOptions} {c : Char}

theorem skipGapFrom_inside {start : Place} (h : ¬ ClosesComment (c :: body))
    (hcs : cs.head? ≠ some '/') (p : Place) :
    skipGapFrom lineComments (.blockComment start) (c :: (body ++ cs)) p =
      skipGapFrom lineComments (.blockComment start) (body ++ cs) (p.after c) := by
  rw [skipGapFrom]
  rintro ds rfl hds
  cases body with
  | nil =>
    rw [List.nil_append] at hds
    exact hcs (hds ▸ rfl)
  | cons d body =>
    cases hds
    exact h ⟨[], body, rfl⟩

theorem skipGapFrom_blockComment {start : Place} (h : ¬ ClosesComment body) (cs : List Char)
    (p : Place) : skipGapFrom lineComments (.blockComment start) (body ++ '*' :: '/' :: cs) p =
      skipGapFrom lineComments .space cs (p.afterAll (body ++ ['*', '/'])) := by
  induction body generalizing p with
  | nil => rw [List.nil_append, List.nil_append, skipGapFrom]
  | cons c body ih =>
    have hbody : ¬ ClosesComment body := fun hc => h (List.infix_cons hc)
    rw [List.cons_append, skipGapFrom_inside h (by simp), ih hbody]
    rfl

theorem skipGapFrom_unclosed {start : Place} (h : ¬ ClosesComment body) (p : Place) :
    skipGapFrom lineComments (.blockComment start) body p =
      (⟨[], p.afterAll body⟩, some start) := by
  induction body generalizing p with
  | nil => rw [skipGapFrom, Place.afterAll_nil]
  | cons c body ih =>
    have hbody : ¬ ClosesComment body := fun hc => h (List.infix_cons hc)
    have hstep : skipGapFrom lineComments (.blockComment start) (c :: (body ++ [])) p =
        skipGapFrom lineComments (.blockComment start) (body ++ []) (p.after c) :=
      skipGapFrom_inside h (by simp) p
    rw [List.append_nil] at hstep
    rw [hstep, ih hbody]
    rfl

theorem skipGapFrom_lineComment (h : '\n' ∉ body) (cs : List Char) (p : Place) :
    skipGapFrom lineComments .lineComment (body ++ cs) p =
      skipGapFrom lineComments .lineComment cs (p.afterAll body) := by
  induction body generalizing p with
  | nil => rfl
  | cons c body ih =>
    rw [List.mem_cons, not_or] at h
    rw [List.cons_append, skipGapFrom, if_neg (Ne.symm h.1), ih h.2]
    rfl

theorem IsGap.skip (h : IsGap lineComments gap) (cs : List Char) (p : Place) :
    skipGapFrom lineComments .space (gap ++ cs) p =
      skipGapFrom lineComments .space cs (p.afterAll gap) := by
  induction h generalizing p with
  | nil => rfl
  | @space c gap hc _ ih =>
    rw [List.cons_append, skipGapFrom, if_pos hc, ih]
    · rfl
    all_goals
      rintro ds rfl
      cases hc
  | @blockComment body gap hbody _ ih =>
    simp only [List.cons_append, List.append_assoc]
    rw [skipGapFrom, skipGapFrom_blockComment hbody, ih]
    simp [Place.afterAll]
  | @lineComment body gap hlines hbody _ ih =>
    simp only [List.cons_append, List.append_assoc]
    rw [skipGapFrom, if_pos hlines, skipGapFrom_lineComment hbody, skipGapFrom, if_pos rfl, ih]
    simp [Place.afterAll]

theorem IsTrailer.skip (h : IsTrailer lineComments cs) (p : Place) :
    skipGapFrom lineComments .space cs p = (⟨[], p.afterAll cs⟩, none) := by
  cases h with
  | gap hcs =>
    have hskip := hcs.skip [] p
    rw [List.append_nil] at hskip
    rw [hskip, skipGapFrom]
  | @lineComment cs body hlines hcs hbody =>
    have hline (p : Place) : skipGapFrom lineComments .lineComment (body ++ []) p =
        skipGapFrom lineComments .lineComment [] (p.afterAll body) :=
      skipGapFrom_lineComment hbody [] p
    simp only [List.append_nil] at hline
    rw [hcs.skip, skipGapFrom, if_pos hlines, hline, skipGapFrom]
    simp [Place.afterAll]

/-- Nothing is passed over where a text starts with neither white space nor a comment. -/
theorem skipGapFrom_stop (hspace : isSpace c = false)
    (hopens : ¬ OpensComment lineComments (c :: cs)) (p : Place) :
    skipGapFrom lineComments .space (c :: cs) p = (⟨c :: cs, p⟩, none) := by
  rw [OpensComment, not_or, not_and] at hopens
  by_cases hline : ['/', '/'] <+: c :: cs
  · obtain ⟨ds, hds⟩ := hline
    cases hds
    exact if_neg fun hlines => hopens.2 hlines ⟨ds, rfl⟩
  · rw [skipGapFrom, if_neg (by simp [hspace])]
    · rintro ds rfl rfl
      exact hopens.1 ⟨ds, rfl⟩
    · rintro ds rfl rfl
      exact hline ⟨ds, rfl⟩

/-! ## Divisions -/

/-- A gap and the lexeme after it. -/
structure Piece where
  gap : List Char
  lexeme : Lexeme

def Piece.chars (p : Piece) : List Char := p.gap ++ p.lexeme.chars

/-- The tokens of pieces that stand after the text `before`. -/
def Piece.tokens (file : Int) : List Char → List Piece → List Token
  | _, [] => []
  | before, p :: ps =>
    p.lexeme.token file (.behind (before ++ p.gap)) :: Piece.tokens file (before ++ p.chars) ps

/-- The end of a text as a lexeme. -/
def Lexeme.endOfFile : Lexeme := ⟨.endOfFile, "", []⟩

/-- The pieces of a text. All but the last one have a lexeme of the language, the longest that the text
    goes on with after the gap. The last one has the end of the text or what is illegal in it: a block
    comment that is not closed, or the longest lexeme there. -/
inductive Division (lineComments : Bool) : List Char → List Piece → Prop where
  | endOfFile {gap : List Char} :
    IsTrailer lineComments gap → Division lineComments gap [⟨gap, .endOfFile⟩]
  | unclosed {gap body : List Char} :
    IsGap lineComments gap → ¬ ClosesComment body →
    Division lineComments (gap ++ '/' :: '*' :: body)
      [⟨gap, .illegal .unterminatedComment ['/', '*']⟩]
  | faulty {gap rest : List Char} {l : Lexeme} :
    IsGap lineComments gap → l.Faulty → l.Longest (l.chars ++ rest) →
    Division lineComments (gap ++ (l.chars ++ rest)) [⟨gap, l⟩]
  | legal {gap rest : List Char} {l : Lexeme} {pieces : List Piece} :
    IsGap lineComments gap → l.Legal → l.Longest (l.chars ++ rest) →
    ¬ OpensComment lineComments (l.chars ++ rest) → Division lineComments rest pieces →
    Division lineComments (gap ++ (l.chars ++ rest)) (⟨gap, l⟩ :: pieces)

/-- Every text can be divided. -/
theorem exists_division (lineComments : Bool) (text : List Char) :
    ∃ pieces, Division lineComments text pieces := by
  -- on the length: a lexeme is not empty, so what follows it is shorter
  induction hn : text.length using Nat.strong_induction_on generalizing text with
  | _ n ih =>
    cases startsWithGap lineComments text with
    | ends htext => exact ⟨_, .endOfFile htext⟩
    | unclosed hgap hbody => exact ⟨_, .unclosed hgap hbody⟩
    | @stops gap c rest hgap hspace hopens =>
      obtain ⟨more, hmore⟩ := Lexeme.ofChars_prefix (c :: rest)
      have hformed := Lexeme.formed_ofChars rest hspace
      have hlongest := Lexeme.longest_ofChars c rest
      generalize Lexeme.ofChars (c :: rest) = l at hmore hformed hlongest
      rw [← hmore] at hlongest hopens hn ⊢
      rcases hformed with hlegal | hfaulty
      · have hpos := List.length_pos_iff.2 (Lexeme.Formed.chars_ne_nil (.inl hlegal))
        obtain ⟨pieces, hpieces⟩ := ih more.length (by simp at hn; omega) more rfl
        exact ⟨_, .legal hgap hlegal hlongest hopens hpieces⟩
      · exact ⟨_, .faulty hgap hfaulty hlongest⟩

theorem OpensComment.head? (h : OpensComment lineComments cs) : cs.head? = some '/' := by
  obtain ⟨_, rfl⟩ | ⟨-, _, rfl⟩ := h <;> rfl

theorem Lexeme.Faulty.not_opensComment {l : Lexeme} (h : l.Faulty) (rest : List Char) :
    ¬ OpensComment lineComments (l.chars ++ rest) := by
  intro hopens
  have hhead := hopens.head?
  cases h with
  | @malformed digits c cs hne hdigits =>
    obtain ⟨d, ds, rfl⟩ := List.exists_cons_of_ne_nil hne
    cases hhead
    have hslash : isDigit '/' = false := rfl
    rw [hdigits '/' List.mem_cons_self] at hslash
    contradiction
  | singleBar => cases hhead
  | unexpected _ hlegal =>
    cases hhead
    exact hlegal _ (.symbol (k := .slash) (by decide)) rfl

/-- The next token after a gap. -/
theorem Cursor.next_gap {rest : List Char} {l : Lexeme} (hgap : IsGap o.lineComments gap)
    (hl : l.Formed) (hlongest : l.Longest (l.chars ++ rest))
    (hopens : ¬ OpensComment o.lineComments (l.chars ++ rest)) (p : Place) :
    Cursor.next o ⟨gap ++ (l.chars ++ rest), p⟩ =
      (l.token o.file (p.afterAll gap), ⟨rest, p.afterAll (gap ++ l.chars)⟩) := by
  have hread := hl.ofChars_eq hlongest
  have hstop : skipGapFrom o.lineComments .space (l.chars ++ rest) (p.afterAll gap) =
      (⟨l.chars ++ rest, p.afterAll gap⟩, none) := by
    obtain ⟨c, cs, hcs⟩ := List.exists_cons_of_ne_nil hl.chars_ne_nil
    rw [hcs] at hopens ⊢
    exact skipGapFrom_stop (hl.isSpace_of_mem c (by simp [hcs])) hopens _
  simp only [Cursor.next, Cursor.skipGap, hgap.skip, hstop, hread, List.drop_left,
    Place.afterAll_append]

theorem Cursor.tokens_last {c : Cursor} {t : Token} (h : (c.next o).1 = t)
    (hlast : t.kind.isLast = true) : c.tokens o = [t] := by
  rw [Cursor.tokens, h, if_pos hlast]

theorem Cursor.tokens_more {c c' : Cursor} {t : Token} (h : c.next o = (t, c'))
    (hlast : t.kind.isLast = false) : c.tokens o = t :: c'.tokens o := by
  rw [Cursor.tokens, h, if_neg (by simp [hlast])]

/-- The tokens of a text are those of its division. -/
theorem Division.tokens_eq (h : Division o.lineComments text pieces) (before : List Char) :
    Cursor.tokens o ⟨text, .behind before⟩ = Piece.tokens o.file before pieces := by
  induction h generalizing before with
  | @endOfFile gap hgap =>
    have hnext : (Cursor.next o ⟨gap, .behind before⟩).1 =
        Lexeme.endOfFile.token o.file (.behind (before ++ gap)) := by
      simp only [Cursor.next, Cursor.skipGap, hgap.skip, Place.afterAll_behind]
      rfl
    exact Cursor.tokens_last hnext rfl
  | @unclosed gap body hgap hbody =>
    have hnext : (Cursor.next o ⟨gap ++ '/' :: '*' :: body, .behind before⟩).1 =
        (Lexeme.illegal .unterminatedComment ['/', '*']).token o.file (.behind (before ++ gap)) := by
      simp only [Cursor.next, Cursor.skipGap, hgap.skip, Place.afterAll_behind, skipGapFrom,
        skipGapFrom_unclosed hbody]
      rfl
    exact Cursor.tokens_last hnext rfl
  | @faulty gap rest l hgap hfaulty hlongest =>
    have hnext := Cursor.next_gap hgap (.inr hfaulty) hlongest (hfaulty.not_opensComment rest)
      (.behind before)
    rw [Place.afterAll_behind] at hnext
    exact Cursor.tokens_last (congrArg Prod.fst hnext) (by rw [Lexeme.token, hfaulty.kind]; rfl)
  | @legal gap rest l pieces hgap hlegal hlongest hopens _ ih =>
    have hnext := Cursor.next_gap hgap (.inl hlegal) hlongest hopens (.behind before)
    rw [Place.afterAll_behind, Place.afterAll_behind] at hnext
    rw [Cursor.tokens_more hnext hlegal.isLast, ih]
    rfl

theorem Division.scan_eq (h : Division o.lineComments text pieces) :
    scan o text = Piece.tokens o.file [] pieces :=
  h.tokens_eq []

/-- The pieces are the text, up to what follows an illegal lexeme. -/
theorem Division.text_eq (h : Division lineComments text pieces) : ∃ rest,
      text = pieces.flatMap Piece.chars ++ rest ∧
      ((∀ p ∈ pieces, p.lexeme.kind ≠ .illegal) → rest = []) := by
  induction h with
  | @endOfFile gap => exact ⟨[], by simp [Piece.chars, Lexeme.endOfFile], fun _ => rfl⟩
  | @unclosed gap body =>
    refine ⟨body, by simp [Piece.chars, Lexeme.illegal], fun hlegal => ?_⟩
    exact absurd rfl (hlegal _ List.mem_cons_self)
  | @faulty gap rest l _ hfaulty =>
    refine ⟨rest, by simp [Piece.chars], fun hlegal => ?_⟩
    exact absurd hfaulty.kind (hlegal _ List.mem_cons_self)
  | legal _ _ _ _ _ ih =>
    obtain ⟨rest, rfl, hrest⟩ := ih
    refine ⟨rest, by simp [Piece.chars], fun hlegal => hrest fun p hp => ?_⟩
    exact hlegal p (List.mem_cons_of_mem _ hp)

/-- What is not about positions is in the pieces. -/
theorem Piece.map_tokens {α : Type} (f : TokenKind → String → α) (file : Int) (before : List Char)
    (pieces : List Piece) : (Piece.tokens file before pieces).map (fun t => f t.kind t.value) =
      pieces.map fun p => f p.lexeme.kind p.lexeme.value := by
  induction pieces generalizing before with
  | nil => rfl
  | cons p pieces ih =>
    rw [Piece.tokens, List.map_cons, List.map_cons, ih]
    rfl

theorem Piece.legal_tokens {file : Int} {before : List Char} :
    (∀ t ∈ Piece.tokens file before pieces, t.kind ≠ .illegal) ↔
      ∀ p ∈ pieces, p.lexeme.kind ≠ .illegal := by
  have hkinds := Piece.map_tokens (fun k _ => k) file before pieces
  have hmap := congrArg (fun ks => ∀ k ∈ ks, k ≠ TokenKind.illegal) hkinds
  simpa only [List.forall_mem_map, eq_iff_iff] using hmap

/-- A scan divides the text into gaps and lexemes, and its tokens are the lexemes with their places: it
    ends with the first token that is the end of the text or illegal, no character is lost, and only
    what follows an illegal lexeme is not read. -/
theorem scan_divides (o : ScanOptions) (text : List Char) :
    (∃ ts last, scan o text = ts ++ [last] ∧ last.kind.isLast = true ∧
      ∀ t ∈ ts, t.kind.isLast = false) ∧
    ∃ pieces rest, Division o.lineComments text pieces ∧
      scan o text = Piece.tokens o.file [] pieces ∧
      text = pieces.flatMap Piece.chars ++ rest ∧
      ((∀ t ∈ scan o text, t.kind ≠ .illegal) → rest = []) := by
  refine ⟨Cursor.endsOnce_tokens o ⟨text, {}⟩, ?_⟩
  obtain ⟨pieces, hpieces⟩ := exists_division o.lineComments text
  obtain ⟨rest, htext, hrest⟩ := hpieces.text_eq
  have hscan := hpieces.scan_eq
  refine ⟨pieces, rest, hpieces, hscan, htext, fun hlegal => ?_⟩
  rw [hscan] at hlegal
  exact hrest (Piece.legal_tokens.1 hlegal)

/-! ## Lexemes with separators between them -/

/-- What a text starts with ends before a character that is not in it. -/
theorem prefix_of_prefix_append {ds more : List Char} (h : ds <+: cs ++ c :: more) (hc : c ∉ ds) :
    ds <+: cs := by
  rcases List.prefix_or_prefix_of_prefix h (List.prefix_append cs _) with hds | ⟨es, rfl⟩
  · exact hds
  · cases es with
    | nil => simp
    | cons e es =>
      obtain ⟨_, hes⟩ := (List.prefix_append_right_inj cs).1 h
      cases hes
      simp at hc

namespace Lexeme

variable {l : Lexeme} {c : Char}

/-- Every lexeme ends before white space. -/
theorem Longest.before_space {cs : List Char} (h : l.Longest cs) (hc : isSpace c = true)
    (more : List Char) : l.Longest (cs ++ c :: more) := by
  intro l' hl' hleads
  refine h l' hl' (prefix_of_prefix_append hleads fun hmem => ?_)
  rw [hl'.isSpace_of_mem c hmem] at hc
  contradiction

theorem longest_chars (l : Lexeme) : l.Longest l.chars := fun _ _ h => h.length_le

end Lexeme

/-- No comment starts with white space after its first character. -/
theorem not_opensComment_before_space (h : ¬ OpensComment lineComments cs) (hc : isSpace c = true)
    (more : List Char) : ¬ OpensComment lineComments (cs ++ c :: more) := by
  have hslash : c ≠ '/' := by
    rintro rfl
    cases hc
  have hstar : c ≠ '*' := by
    rintro rfl
    cases hc
  rintro (hopens | ⟨hlines, hopens⟩)
  · exact h (.inl (prefix_of_prefix_append hopens (by simp [hslash, hstar])))
  · exact h (.inr ⟨hlines, prefix_of_prefix_append hopens (by simp [hslash])⟩)

/-- No lexeme of the language is a comment. -/
theorem Lexeme.Legal.not_opensComment {l : Lexeme} (h : l.Legal) :
    ¬ OpensComment lineComments l.chars := by
  intro hopens
  have hhead := hopens.head?
  rcases h.chars_cases with ⟨-, hword⟩ | ⟨k, hk, hchars⟩
  · have hslash : isWordChar '/' = false := rfl
    rw [hword '/' (List.mem_of_head? hhead)] at hslash
    contradiction
  · have hall : ∀ k ∈ TokenKind.symbols,
        ¬ ['/', '*'] <+: k.text.toList ∧ ¬ ['/', '/'] <+: k.text.toList := by decide
    rw [hchars] at hopens
    rcases hopens with hopens | ⟨-, hopens⟩
    · exact (hall k hk).1 hopens
    · exact (hall k hk).2 hopens

/-- White space, and after it any gap. -/
def IsSeparator (lineComments : Bool) (cs : List Char) : Prop :=
  ∃ c gap, cs = c :: gap ∧ isSpace c = true ∧ IsGap lineComments gap

/-- Lexemes, each with what stands after it. -/
def rendered (items : List (Lexeme × List Char)) : List Char :=
  items.flatMap fun i => i.1.chars ++ i.2

theorem exists_division_rendered {items : List (Lexeme × List Char)}
    (h : ∀ i ∈ items, i.1.Legal ∧ IsSeparator lineComments i.2) (hgap : IsGap lineComments gap) :
    ∃ pieces,
      Division lineComments (gap ++ rendered items) pieces ∧
      pieces.map Piece.lexeme = items.map Prod.fst ++ [.endOfFile] := by
  induction items generalizing gap with
  | nil => exact ⟨_, .endOfFile (.gap (by simpa [rendered] using hgap)), rfl⟩
  | cons i items ih =>
    obtain ⟨l, sep⟩ := i
    obtain ⟨⟨hl, c, sep, rfl, hc, hsep⟩, hitems⟩ := List.forall_mem_cons.1 h
    obtain ⟨pieces, hpieces, hlexemes⟩ := ih hitems (.space hc hsep)
    refine ⟨⟨gap, l⟩ :: pieces, ?_, by rw [List.map_cons, hlexemes]; rfl⟩
    have hdivision := Division.legal hgap hl (l.longest_chars.before_space hc _)
      (not_opensComment_before_space hl.not_opensComment hc _) hpieces
    simpa [rendered] using hdivision

/-- Lexemes of the language that are written with separators between them are scanned into the tokens
    that they spell. -/
theorem scan_rendered (o : ScanOptions) {items : List (Lexeme × List Char)}
    (h : ∀ i ∈ items, i.1.Legal ∧ IsSeparator o.lineComments i.2) :
    (scan o (rendered items)).map (fun t => (t.kind, t.value)) =
      items.map (fun i => (i.1.kind, i.1.value)) ++ [(.endOfFile, "")] := by
  obtain ⟨pieces, hpieces, hlexemes⟩ := exists_division_rendered h .nil
  have hspelled := congrArg (List.map fun l : Lexeme => (l.kind, l.value)) hlexemes
  rw [List.nil_append] at hpieces
  rw [hpieces.scan_eq, Piece.map_tokens Prod.mk]
  simpa [Lexeme.endOfFile, Function.comp_def] using hspelled

/-- A slash before a comment, comments that look like others, and digits that are not ASCII. -/
def crowdedItems : List (Lexeme × List Char) :=
  [(⟨.kwInt, "int", "int".toList⟩, "\n/***/".toList),
   (⟨.identifier, "_\u00f6", "_\u00f6".toList⟩, " /* // /* * /*/".toList),
   (⟨.slash, "", "/".toList⟩, "\t// /* \n".toList),
   (⟨.number, "\u06637", "\u06637".toList⟩, "\x0c/**//**/".toList),
   (⟨.greaterEqual, "", ">=".toList⟩, " ".toList)]

theorem scan_rendered_crowdedItems :
    (∀ i ∈ crowdedItems, i.1.Legal ∧ IsSeparator true i.2) ∧
    (scan {} (rendered crowdedItems)).map (fun t => (t.kind, t.value)) =
      [(.kwInt, "int"), (.identifier, "_\u00f6"), (.slash, ""), (.number, "\u06637"),
       (.greaterEqual, ""), (.endOfFile, "")] := by
  have hitems : ∀ i ∈ crowdedItems, i.1.Legal ∧ IsSeparator true i.2 := by
    simp only [crowdedItems, List.forall_mem_cons, List.not_mem_nil, false_imp_iff, implies_true,
      and_true]
    refine ⟨⟨.keyword (k := .kwInt) (by decide), '\n', _, rfl, rfl, ?_⟩,
      ⟨.name ⟨⟨'_', ['\u00f6'], rfl, rfl⟩, ?_, rfl⟩, ' ', _, rfl, rfl, ?_⟩,
      ⟨.symbol (k := .slash) (by decide), '\t', _, rfl, rfl, ?_⟩,
      ⟨.number (by decide) ?_, '\x0c', _, rfl, rfl, ?_⟩,
      ⟨.symbol (k := .greaterEqual) (by decide), ' ', _, rfl, rfl, .nil⟩⟩
    · exact @IsGap.blockComment _ ['*'] _ (by decide) .nil
    · exact List.all_eq_true.1 rfl
    · exact @IsGap.blockComment _ " // /* * /".toList _ (by decide) .nil
    · exact @IsGap.lineComment _ " /* ".toList _ rfl (by decide) .nil
    · exact List.all_eq_true.1 rfl
    · exact @IsGap.blockComment _ [] _ (by decide) (@IsGap.blockComment _ [] _ (by decide) .nil)
  exact ⟨hitems, scan_rendered {} hitems⟩

/-! ## Texts after one another -/

/-- A gap before a text belongs to its first piece. -/
theorem Division.after_gap (hgap : IsGap lineComments gap) (h : Division lineComments text pieces) :
    ∃ pieces',
      Division lineComments (gap ++ text) pieces' ∧
      pieces'.map Piece.lexeme = pieces.map Piece.lexeme := by
  cases h with
  | endOfFile htext => exact ⟨_, .endOfFile (htext.after hgap), rfl⟩
  | unclosed hgap' hbody =>
    rw [← List.append_assoc]
    exact ⟨_, .unclosed (hgap.append hgap') hbody, rfl⟩
  | faulty hgap' hfaulty hlongest =>
    rw [← List.append_assoc]
    exact ⟨_, .faulty (hgap.append hgap') hfaulty hlongest, rfl⟩
  | legal hgap' hlegal hlongest hopens hmore =>
    rw [← List.append_assoc]
    exact ⟨_, .legal (hgap.append hgap') hlegal hlongest hopens hmore, rfl⟩

/-- A newline keeps two texts apart, whatever the first one ends in. -/
theorem Division.newline {more : List Char} {pieces' : List Piece}
    (h : Division lineComments text pieces) (hlegal : ∀ p ∈ pieces, p.lexeme.kind ≠ .illegal)
    (hmore : Division lineComments more pieces') : ∃ joined,
      Division lineComments (text ++ '\n' :: more) joined ∧
      joined.map Piece.lexeme = (pieces.map Piece.lexeme).dropLast ++ pieces'.map Piece.lexeme := by
  -- down to the end of the first text, whose trailer the newline turns into a gap
  induction h with
  | endOfFile htext =>
    obtain ⟨joined, hjoined, hlexemes⟩ := hmore.after_gap htext.newline
    rw [List.append_assoc] at hjoined
    exact ⟨joined, hjoined, hlexemes⟩
  | unclosed => exact absurd rfl (hlegal _ List.mem_cons_self)
  | faulty _ hfaulty => exact absurd hfaulty.kind (hlegal _ List.mem_cons_self)
  | @legal gap rest l pieces hgap hl hlongest hopens hrest ih =>
    obtain ⟨joined, hjoined, hlexemes⟩ := ih fun p hp => hlegal p (List.mem_cons_of_mem _ hp)
    refine ⟨⟨gap, l⟩ :: joined, ?_, ?_⟩
    · have hdivision := Division.legal hgap hl
        (by simpa using hlongest.before_space (c := '\n') rfl more)
        (by simpa using not_opensComment_before_space hopens (c := '\n') rfl more) hjoined
      simpa using hdivision
    · have hne : pieces.map Piece.lexeme ≠ [] := by cases hrest <;> simp
      rw [List.map_cons, List.map_cons, List.dropLast_cons_of_ne_nil hne, hlexemes]
      rfl

end MiniCompiler
