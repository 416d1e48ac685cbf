import MiniCompiler.Proofs.FirstError
import MiniCompiler.Proofs.Printing

/-!
# Numbers from text to tree

A scan takes the decimal digits of any script into a number. A number is read only if its digits are
`0` to `9`: then it is a constant of the value that they denote, or out of range if that does not fit a
word. A number with a digit of another script is refused as out of range, whatever it denotes.

The constants of a program are the numbers of its text in their order.

Main statement: `scan_numbers_read`.
-/

namespace MiniCompiler

open Text

variable {ts : List Token} {digits : List Char}

/-! ## What digits denote -/

/-- The value of a decimal digit. Each range of digits begins with a zero and goes up from there, and
    those with more than ten begin again. -/
def Text.digitValue (c : Char) : Nat :=
  match digitRanges.find? fun r => r.1 ≤ c.toNat && c.toNat ≤ r.2 with
  | some r => (c.toNat - r.1) % 10
  | none => 0

example : ∀ r ∈ digitRanges, (r.2 - r.1) % 10 = 9 := by decide

/-- The number that some digits denote. -/
def Text.denoted (digits : List Char) : Nat := digits.foldl (fun n c => 10 * n + digitValue c) 0

theorem Text.digitValue_of_decimal {c : Char} (h : c.isDigit = true) :
    digitValue c = c.toNat - '0'.toNat := by
  have hc : 0x30 ≤ c.toNat ∧ c.toNat ≤ 0x39 := by
    simp only [Char.isDigit, Bool.and_eq_true, decide_eq_true_eq, ge_iff_le,
      UInt32.le_iff_toNat_le] at h
    exact h
  have hfind : digitRanges.find? (fun r => r.1 ≤ c.toNat && c.toNat ≤ r.2) = some (0x30, 0x39) :=
    List.find?_cons_of_pos (by simpa using hc)
  have hzero : '0'.toNat = 0x30 := rfl
  simp only [digitValue, hfind, hzero]
  omega

theorem Text.foldl_of_decimal (h : ∀ c ∈ digits, c.isDigit = true) (n : Nat) :
    digits.foldl (fun n c => 10 * n + digitValue c) n = Nat.ofDigitChars 10 digits n := by
  induction digits generalizing n with
  | nil => rfl
  | cons c digits ih =>
    rw [List.foldl_cons, digitValue_of_decimal (h c List.mem_cons_self),
      ih fun d hd => h d (List.mem_cons_of_mem c hd), Nat.ofDigitChars_cons]

theorem decimalFrom_eq_none (h : ¬ ∀ c ∈ digits, c.isDigit = true) (n : Nat) :
    decimalFrom n digits = none := by
  induction digits generalizing n with
  | nil => simp at h
  | cons c digits ih =>
    rw [decimalFrom]
    split
    · rename_i hc
      refine ih (fun hall => h ?_) _
      have hdigit : c.isDigit = true := by simpa [Char.isDigit, Char.le_def] using hc
      exact List.forall_mem_cons.2 ⟨hdigit, hall⟩
    · rfl

/-- Digits that can be read: from `0` to `9`, of a number that fits a word. -/
def InRange (digits : List Char) : Prop :=
  (∀ c ∈ digits, c.isDigit = true) ∧ (denoted digits : Int) < wordBound

instance (digits : List Char) : Decidable (InRange digits) :=
  inferInstanceAs (Decidable (_ ∧ _))

theorem int64?_of_digits (hne : digits ≠ []) (h : ∀ c ∈ digits, isDigit c = true) :
    int64? digits = if InRange digits then some (denoted digits : Int) else none := by
  have hdecimal : decimal? digits = decimalFrom 0 digits := by
    cases digits with
    | nil => exact absurd rfl hne
    | cons c digits => rfl
  rw [int64?_of_isDigit h, hdecimal]
  by_cases hall : ∀ c ∈ digits, c.isDigit = true
  · have hread : decimalFrom 0 digits = some (denoted digits) := by
      rw [decimalFrom_of_isDigit hall, ← foldl_of_decimal hall, denoted]
    rw [hread, Option.bind_some]
    by_cases hbound : (denoted digits : Int) < wordBound
    · rw [if_pos hbound, if_pos ⟨hall, hbound⟩]
    · rw [if_neg hbound, if_neg fun hrange => hbound hrange.2]
  · rw [decimalFrom_eq_none hall, if_neg fun hrange => hall hrange.1]
    rfl

/-! ## Numbers of a scan -/

def numbers (ts : List Token) : List Token := ts.filter (·.kind == .number)

theorem mem_numbers {t : Token} :
    t ∈ numbers ts ↔ t ∈ ts ∧ t.kind = .number := by
  simp [numbers]

theorem Lexeme.number_value_ne_nil {c : Char} {cs : List Char} (hc : isDigit c = true)
    (h : (Lexeme.number (c :: cs)).kind = .number) : (Lexeme.number (c :: cs)).value.toList ≠ [] := by
  unfold number at h ⊢
  split at h
  · cases h
  · simp [hc]

theorem Lexeme.symbol_kind_ne_number (c : Char) (cs : List Char) :
    (Lexeme.symbol c cs).kind ≠ .number := by
  fun_cases symbol <;> rintro ⟨⟩

theorem Lexeme.value_ne_nil {cs : List Char} (h : (Lexeme.ofChars cs).kind = .number) :
    (Lexeme.ofChars cs).value.toList ≠ [] := by
  cases cs with
  | nil => cases h
  | cons c cs =>
    rw [ofChars] at h ⊢
    by_cases hword : isWordStart c = true
    · rw [if_pos hword] at h
      exact absurd h (TokenKind.ofWord_ne_number _)
    rw [if_neg hword] at h ⊢
    by_cases hdigit : isDigit c = true
    · rw [if_pos hdigit] at h ⊢
      exact number_value_ne_nil hdigit h
    · rw [if_neg hdigit] at h
      exact absurd h (symbol_kind_ne_number c cs)

theorem Cursor.number_next {o : ScanOptions} {c : Cursor} (h : (c.next o).1.kind = .number) :
    (c.next o).1.value.toList ≠ [] := by
  unfold next at h ⊢
  split at h
  · cases h
  · exact Lexeme.value_ne_nil h

theorem Cursor.number_tokens (o : ScanOptions) (c : Cursor) :
    ∀ t ∈ c.tokens o, t.kind = .number → t.value.toList ≠ [] := by
  fun_induction Cursor.tokens with
  | case1 c _ => exact List.forall_mem_singleton.2 c.number_next
  | case2 c _ ih => exact List.forall_mem_cons.2 ⟨c.number_next, ih⟩

theorem Token.int64?_of_mem_scan {o : ScanOptions} {text : List Char} {t : Token}
    (h : t ∈ numbers (scan o text)) : int64? t.value.toList =
      if InRange t.value.toList then some (denoted t.value.toList : Int) else none := by
  obtain ⟨hmem, hkind⟩ := mem_numbers.1 h
  exact int64?_of_digits (Cursor.number_tokens o _ t hmem hkind)
    ((Cursor.legible_tokens o _ t hmem).number hkind)

/-! ## Constants of a program -/

mutual

/-- The integer constants of an expression with their positions, from left to right. -/
def Expr.constants : Expr → List (Pos × Int)
  | .int p n => [(p, n)]
  | .absent | .bool _ _ | .var _ => []
  | .assign _ _ e | .unary _ _ e => e.constants
  | .call _ _ args _ => Expr.constantsAll args
  | .arith _ _ l r | .comp _ _ l r | .logic _ _ l r => l.constants ++ r.constants

def Expr.constantsAll : List (Bool × Expr) → List (Pos × Int)
  | [] => []
  | (_, e) :: args => e.constants ++ Expr.constantsAll args

end

mutual

/-- The integer constants of a statement. -/
def Stmt.constants : Stmt → List (Pos × Int)
  | .absent | .empty _ | .breakLoop _ | .continueLoop _ => []
  | .block _ stmts => Stmt.constantsAll stmts
  | .expr _ e | .ret _ e => e.constants
  | .locals _ _ vars => vars.flatMap (·.init.constants)
  | .cond _ test yes no => test.constants ++ yes.constants ++ no.constants
  | .whileLoop _ test body => test.constants ++ body.constants
  | .forLoop _ init test step body =>
    init.constants ++ test.constants ++ step.constants ++ body.constants

def Stmt.constantsAll : List Stmt → List (Pos × Int)
  | [] => []
  | s :: stmts => s.constants ++ Stmt.constantsAll stmts

end

/-- The integer constants of a function. -/
def Function.constants (f : Function) : List (Pos × Int) :=
  match f.body with
  | none => []
  | some b => Stmt.constantsAll b.stmts

/-- The integer constants of a program. -/
def Program.constants (p : Program) : List (Pos × Int) := p.flatMap Function.constants

theorem Expr.constants_binary (p : Pos) (op : BinaryOp) (l r : Expr) :
    (Expr.binary p op l r).constants = l.constants ++ r.constants := by
  cases op <;> rw [binary, constants]

theorem Expr.constantsAll_map (es : List Expr) :
    Expr.constantsAll (es.map (false, ·)) = es.flatMap Expr.constants := by
  induction es with
  | nil => rfl
  | cons e es ih => rw [List.map_cons, constantsAll, ih, List.flatMap_cons]

theorem Stmt.constantsAll_eq (stmts : List Stmt) :
    Stmt.constantsAll stmts = stmts.flatMap Stmt.constants := by
  induction stmts with
  | nil => rfl
  | cons s stmts ih => rw [constantsAll, ih, List.flatMap_cons]

/-- The constants that are read from some tokens. -/
def readNumbers (ts : List Token) : List (Pos × Int) :=
  (numbers ts).map fun t => (t.pos, (int64? t.value.toList).getD 0)

@[simp] theorem readNumbers_nil : readNumbers [] = [] := rfl

@[simp] theorem readNumbers_append (us vs : List Token) :
    readNumbers (us ++ vs) = readNumbers us ++ readNumbers vs := by
  simp [readNumbers, numbers]

@[simp] theorem readNumbers_cons {t : Token} (h : t.kind ≠ .number) (ts : List Token) :
    readNumbers (t :: ts) = readNumbers ts := by
  simp [readNumbers, numbers, h]

/-- Parts of a tree and the tokens that they were read from, one after the other. -/
theorem flatMap_readNumbers {α : Type} {items : List α} {constants : α → List (Pos × Int)}
    {tokens : α → List Token} (h : ∀ i ∈ items, constants i = readNumbers (tokens i)) :
    items.flatMap constants = readNumbers (items.flatMap tokens) := by
  induction items with
  | nil => rfl
  | cons i items ih =>
    rw [List.flatMap_cons, List.flatMap_cons, readNumbers_append, h i List.mem_cons_self,
      ih fun j hj => h j (List.mem_cons_of_mem i hj)]

theorem Rule.ne_number_of_mem_operators {r : Rule} {k : TokenKind} (h : k ∈ r.operators) :
    k ≠ .number := by
  rintro rfl
  cases r <;> simp [Rule.operators] at h

theorem TokenKind.ne_number_of_isType {k : TokenKind} (h : k.isType = true) : k ≠ .number := by
  rintro rfl
  cases h

theorem Expr.Spelled.constants {r : Rule} {e : Expr} (h : Expr.Spelled r ts e) :
    e.constants = readNumbers ts := by
  induction h with
  | assign hx hsign _ ih => simp [Expr.constants, ih, hx, hsign]
  | operators _ ih | operand _ _ ih | atom _ ih => exact ih
  | operation _ hop _ _ ihl ihr =>
    simp [Expr.constants_binary, ihl, ihr, Rule.ne_number_of_mem_operators hop]
  | sign ht _ ih =>
    obtain ht | ht := ht <;> simp [Expr.constants, ih, ht]
  | number ht hn => simp [Expr.constants, readNumbers, numbers, ht, hn]
  | true ht | false ht | var ht => simp [Expr.constants, ht]
  | callEmpty hf hlp hrp => simp [Expr.constants, Expr.constantsAll, hf, hlp, hrp]
  | @call f lp rp ts e more hf hlp hrp _ hcommas _ ih ihs =>
    have hmore : more.flatMap (·.arg.constants) =
        readNumbers (more.flatMap fun m => m.comma :: m.tokens) :=
      flatMap_readNumbers fun m hm => by rw [ihs m hm, readNumbers_cons (by simp [hcommas m hm])]
    rw [Expr.constants, Expr.constantsAll_map, List.flatMap_cons, ih, List.flatMap_map, hmore]
    simp [hf, hlp, hrp]
  | parens hlp hrp _ ih => simp [ih, hlp, hrp]

theorem Expr.SpelledOrAbsent.constants {e : Expr}
    (h : Expr.SpelledOrAbsent ts e) : e.constants = readNumbers ts := by
  cases h with
  | absent => rfl
  | present he => exact he.constants

theorem Local.Spelled.constants {v : Local} (h : Local.Spelled ts v) :
    v.init.constants = readNumbers ts := by
  cases h with
  | bare hx => simp [Expr.constants, hx]
  | init hx hsign he => simp [he.constants, hx, hsign]

theorem SpelledList.constants {vars : List Local} (h : SpelledList Local.Spelled ts vars) :
    vars.flatMap (·.init.constants) = readNumbers ts := by
  induction h with
  | last hv => simp [hv.constants]
  | next hv hcomma _ ih => simp [hv.constants, ih, hcomma]

theorem Stmt.Declares.constants {s : Stmt} (h : Stmt.Declares ts s) :
    s.constants = readNumbers ts := by
  obtain ⟨ht, hvars⟩ := h
  rw [Stmt.constants, hvars.constants, readNumbers_cons (TokenKind.ne_number_of_isType ht)]

theorem Stmt.SpelledInit.constants {s : Stmt} (h : Stmt.SpelledInit ts s) :
    s.constants = readNumbers ts := by
  cases h with
  | absent => rfl
  | declares hs => exact hs.constants
  | expr he => rw [Stmt.constants, he.constants]

section Statements

variable {allows : Feature → Bool} {ts : List Token}

theorem Stmt.Spelled.constants {s : Stmt} (h : Stmt.Spelled allows ts s) :
    s.constants = readNumbers ts := by
  induction h with
  | block hlb hrb _ ih =>
    rw [Stmt.constants, Stmt.constantsAll_eq, List.flatMap_map, flatMap_readNumbers ih]
    simp [hlb, hrb]
  | empty ht => simp [Stmt.constants, ht]
  | locals hs hsemi => simp [hs.constants, hsemi]
  | cond ht hlp htest hrp _ ih => simp [Stmt.constants, htest.constants, ih, ht, hlp, hrp]
  | condElse ht hlp htest hrp _ _ helse _ ihyes ihno =>
    simp [Stmt.constants, htest.constants, ihyes, ihno, ht, hlp, hrp, helse]
  | whileLoop ht hlp htest hrp _ ih => simp [Stmt.constants, htest.constants, ih, ht, hlp, hrp]
  | forLoop _ ht hlp hinit hsemi₁ htest hsemi₂ hstep hrp _ ih =>
    simp [Stmt.constants, hinit.constants, htest.constants, hstep.constants, ih, ht, hlp, hsemi₁,
      hsemi₂, hrp]
  | breakLoop ht hsemi => simp [Stmt.constants, ht, hsemi]
  | continueLoop _ ht hsemi => simp [Stmt.constants, ht, hsemi]
  | ret ht he hsemi => simp [Stmt.constants, he.constants, ht, hsemi]
  | @expr t semi ts e he hsemi =>
    have hend : readNumbers [semi] = [] := by simp [hsemi]
    rw [Stmt.constants, he.constants, readNumbers_append, hend, List.append_nil]

theorem Param.Spelled.readNumbers_eq_nil {p : Param} (h : Param.Spelled allows ts p) :
    readNumbers ts = [] := by
  cases h with
  | byValue ht hx => simp [TokenKind.ne_number_of_isType ht, hx]
  | byRef ht hmark _ hx => simp [TokenKind.ne_number_of_isType ht, hmark, hx]

theorem Param.SpelledAll.readNumbers_eq_nil {ps : List Param} (h : Param.SpelledAll allows ts ps) :
    readNumbers ts = [] := by
  cases h with
  | none => rfl
  | some hps =>
    induction hps with
    | last hp => exact hp.readNumbers_eq_nil
    | next hp hcomma _ ih => simp [hp.readNumbers_eq_nil, ih, hcomma]

theorem Function.Spelled.constants {f : Function} (h : Function.Spelled allows ts f) :
    f.constants = readNumbers ts := by
  cases h with
  | prototype ht hx hlp hps hrp hsemi =>
    simp [Function.constants, hps.readNumbers_eq_nil, TokenKind.ne_number_of_isType ht, hx, hlp, hrp,
      hsemi]
  | definition ht hx hlp hps hrp hbody =>
    have hbody := hbody.constants
    rw [Stmt.constants] at hbody
    simp [Function.constants, hps.readNumbers_eq_nil, hbody, TokenKind.ne_number_of_isType ht, hx,
      hlp, hrp]

theorem Program.Spelled.constants {p : Program} (h : Program.Spelled allows ts p) :
    p.constants = readNumbers ts := by
  induction h with
  | nil => rfl
  | cons hf _ ih =>
    rw [Program.constants, List.flatMap_cons, hf.constants, readNumbers_append, ← ih]
    rfl

end Statements

/-! ## Reading numbers -/

/-- A number that stands before a legal token is passed and then looked at. -/
theorem Parser.primary_number {t eof : Token} (ht : t.kind = .number)
    (hlegal : TokenStream.peek eof ts ≠ .illegal) (fuel : Nat) :
    Parser.primary (fuel + 1) (.before eof (t :: ts)) =
      match int64? t.value.toList with
      | some n => .ok (.int t.pos n, .before eof ts)
      | none => .error (.refused t.pos (.outOfRange t.value)) := by
  have hopen : Parser.primary (fuel + 1) (.before eof (t :: ts)) =
      Parser.numberOf t (.before eof (t :: ts)) := by
    rw [Parser.primary, Parser.run_current, List.headD_cons, ht]
    rfl
  rw [hopen, Parser.numberOf, Parser.run_advance, if_neg hlegal]
  cases int64? t.value.toList <;> rfl

section Scanned

variable {o : ScanOptions} {text : List Char}

/-- A number of a scan can be read exactly if it is in range. -/
theorem Token.readable_iff_inRange {t : Token} (ht : t ∈ numbers (scan o text)) :
    t.Readable ↔ InRange t.value.toList := by
  rw [Token.Readable, Token.int64?_of_mem_scan ht]
  simp [(mem_numbers.1 ht).2]

theorem Program.constants_of_parse {allows : Feature → Bool} {p : Program}
    (h : Program.parse allows (scan o text) = .ok p) :
    (∀ t ∈ numbers (scan o text), InRange t.value.toList) ∧
      p.constants = (numbers (scan o text)).map fun t => (t.pos, (denoted t.value.toList : Int)) := by
  obtain ⟨ts, last, hscan, hlast, hts⟩ := Cursor.endsOnce_tokens o ⟨text, {}⟩
  rw [← scan] at hscan
  rw [hscan] at h
  obtain ⟨hend, hspelled⟩ := Program.spelled_of_parse hlast hts h
  have hnumbers : numbers (scan o text) = numbers ts := by simp [hscan, numbers, hend]
  have hrange : ∀ t ∈ numbers (scan o text), InRange t.value.toList := by
    intro t ht
    refine (Token.readable_iff_inRange ht).1 (hspelled.readable t ?_)
    rw [hnumbers] at ht
    exact (mem_numbers.1 ht).1
  refine ⟨hrange, ?_⟩
  rw [hspelled.constants, readNumbers, ← hnumbers]
  refine List.map_congr_left fun t ht => ?_
  rw [Token.int64?_of_mem_scan ht, if_pos (hrange t ht), Option.getD_some]

theorem Program.exists_of_outOfRange {allows : Feature → Bool} {pos : Pos} {spelling : String}
    (h : Program.parse allows (scan o text) = .error (.refused pos (.outOfRange spelling))) :
    ∃ t ∈ numbers (scan o text), ¬ InRange t.value.toList ∧ t.pos = pos ∧ t.value = spelling := by
  obtain ⟨ts, last, hscan, hlast, -⟩ := Cursor.endsOnce_tokens o ⟨text, {}⟩
  rw [← scan] at hscan
  rw [hscan] at h
  obtain ⟨_, _, us, t, rest, hstop, hsplit, hat⟩ := Program.exists_refusedAt hlast h
  cases hstop
  obtain ⟨hread, hpos, hvalue⟩ := hat.blames
  -- only a number can fail to be readable
  have hkind : t.kind = .number := Decidable.byContradiction fun hk => hread fun h => absurd h hk
  have ht : t ∈ numbers (scan o text) := mem_numbers.2 ⟨by simp [hscan, hsplit], hkind⟩
  exact ⟨t, ht, fun hrange => hread ((Token.readable_iff_inRange ht).2 hrange), hpos.symm,
    hvalue.symm⟩

end Scanned

/-- The numbers of a text are made of digits, of any script. One with the digits `0` to `9` is read to
    the constant that they denote, if that fits a word. Any other is refused as out of range. So the
    constants of a program are its numbers, and only those that do not fit or have other digits are
    ever refused. -/
theorem scan_numbers_read (o : ScanOptions) (text : List Char) :
    (∀ t ∈ numbers (scan o text), t.value.toList ≠ [] ∧ (∀ c ∈ t.value.toList, isDigit c = true) ∧
      ∀ eof ts fuel, TokenStream.peek eof ts ≠ .illegal →
        Parser.primary (fuel + 1) (.before eof (t :: ts)) =
          if InRange t.value.toList then .ok (.int t.pos (denoted t.value.toList), .before eof ts)
          else .error (.refused t.pos (.outOfRange t.value))) ∧
    (∀ spelling, (SyntaxError.outOfRange spelling).message =
      "Integer constant '" ++ spelling ++ "' is out of range.") ∧
    (∀ allows p, Program.parse allows (scan o text) = .ok p →
      (∀ t ∈ numbers (scan o text), InRange t.value.toList) ∧
      p.constants =
        (numbers (scan o text)).map fun t => (t.pos, (denoted t.value.toList : Int))) ∧
    ∀ allows pos spelling,
      Program.parse allows (scan o text) = .error (.refused pos (.outOfRange spelling)) →
      ∃ t ∈ numbers (scan o text), ¬ InRange t.value.toList ∧ t.pos = pos ∧ t.value = spelling := by
  refine ⟨fun t ht => ?_, fun _ => rfl, fun _ _ => Program.constants_of_parse,
    fun _ _ _ => Program.exists_of_outOfRange⟩
  obtain ⟨hmem, hkind⟩ := mem_numbers.1 ht
  refine ⟨Cursor.number_tokens o _ t hmem hkind, (Cursor.legible_tokens o _ t hmem).number hkind,
    fun eof ts fuel hlegal => ?_⟩
  rw [Parser.primary_number hkind hlegal, Token.int64?_of_mem_scan ht]
  by_cases hrange : InRange t.value.toList
  · rw [if_pos hrange, if_pos hrange]
  · rw [if_neg hrange, if_neg hrange]

/-- The Arabic digit three is a number of a scan and denotes 3, and it is refused as out of range. -/
theorem refuses_arabicThree :
    let three : Token := ⟨.number, "٣", { line := 1, column := 1, length := 1 }⟩
    three ∈ numbers (scan {} ['٣']) ∧ denoted ['٣'] = 3 ∧
      Parser.primary 1 (.before { kind := .endOfFile } [three]) =
        .error (.refused three.pos (.outOfRange "٣")) := by
  refine ⟨mem_numbers.2 ⟨?_, rfl⟩, by decide, rfl⟩
  rw [scan, Cursor.tokens, if_neg (by decide)]
  exact List.mem_cons_self

end MiniCompiler
