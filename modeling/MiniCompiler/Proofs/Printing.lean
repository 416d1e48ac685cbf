import MiniCompiler.Proofs.CodeTotal
import MiniCompiler.Proofs.Positions
import MiniCompiler.Proofs.Rendering
import MiniCompiler.Tree.Format

/-!
# Printed programs are read back

The text of a program that was read from a scanned text is scanned and read again, into the same
program up to positions. Every operand is printed as a name, a number, a call or in parentheses, so
an operand is read back by the tightest rule wherever it stands. An `else` is printed after its `if`
without braces; it is read back there because the branch before it does not end in an open `if`.
-/

namespace MiniCompiler

variable {ts : List Token} {e : Expr} {o : ScanOptions} {allows : Feature → Bool} {k : TokenKind}
  {x : String} {test : Expr}

open Text

attribute [local simp] Expr.format Expr.formatArgs Stmt.format Stmt.formatAll Expr.bare Stmt.bare

/-! ## Punctuation -/

namespace Scans

variable {o : ScanOptions} {cs : List Char} {P : List Token → Prop} {k : TokenKind}

theorem punctuation (hk : k ∈ TokenKind.symbols) (hglue : k.glue = [])
    (h : Scans o cs P) : Scans o (k.text.toList ++ cs) (Lead k "" P) :=
  symbol hk (fun _ _ _ _ => by simp [hglue]) h

section

variable (h : Scans o cs P)

include h

theorem leftParen : Scans o ('(' :: cs) (Lead .leftParen "" P) :=
  punctuation (k := .leftParen) (by decide) rfl h

theorem rightParen : Scans o (')' :: cs) (Lead .rightParen "" P) :=
  punctuation (k := .rightParen) (by decide) rfl h

theorem leftBrace : Scans o ('\x7b' :: cs) (Lead .leftBrace "" P) :=
  punctuation (k := .leftBrace) (by decide) rfl h

theorem rightBrace : Scans o ('\x7d' :: cs) (Lead .rightBrace "" P) :=
  punctuation (k := .rightBrace) (by decide) rfl h

theorem semicolon : Scans o (';' :: cs) (Lead .semicolon "" P) :=
  punctuation (k := .semicolon) (by decide) rfl h

theorem comma : Scans o (',' :: cs) (Lead .comma "" P) :=
  punctuation (k := .comma) (by decide) rfl h

theorem blank : Scans o (' ' :: cs) P := space rfl h

end

theorem operator (hk : k ∈ TokenKind.symbols) (h : Scans o cs P) :
    Scans o (k.text.toList ++ ' ' :: cs) (Lead k "" P) := by
  refine symbol hk ?_ h.blank
  intro rest _ c hc
  cases hc
  exact k.not_mem_glue_of_mem_breakChars ' ' (by decide)

theorem assignSign (h : Scans o cs P) : Scans o ('=' :: ' ' :: cs) (Lead .assign "" P) :=
  operator (k := .assign) (by decide) h

end Scans

/-! ## Lists -/

theorem toList_intercalate_cons (sep a b : String) (as : List String) :
    (sep.intercalate (a :: b :: as)).toList =
      a.toList ++ (sep.toList ++ (sep.intercalate (b :: as)).toList) := by
  simp [String.toList_intercalate, List.intercalate]

theorem Scans.commas {α β : Type} (spelled : List Token → α → Prop) (g : α → β)
    {format : α → String} {as : List α} (hne : as ≠ [])
    (h : ∀ a ∈ as, Scans o (format a).toList fun ts => ∃ a', spelled ts a' ∧ g a' = g a) :
    Scans o (", ".intercalate (as.map format)).toList fun ts =>
      ∃ as', SpelledList spelled ts as' ∧ as'.map g = as.map g := by
  induction as with
  | nil => exact absurd rfl hne
  | cons a as ih =>
    have ha := h a List.mem_cons_self
    cases as with
    | nil =>
      simp only [List.map_cons, List.map_nil, String.intercalate_singleton]
      refine ha.mono ?_
      rintro ts ⟨a', hspelled, hg⟩
      exact ⟨[a'], .last hspelled, by rw [List.map_cons, hg]; rfl⟩
    | cons b as =>
      have hmore := ih (by simp) fun x hx => h x (List.mem_cons_of_mem _ hx)
      simp only [List.map_cons] at hmore ⊢
      rw [toList_intercalate_cons]
      refine (ha.append (by simp) hmore.blank.comma).mono ?_
      rintro _ ⟨us, _, rfl, ⟨a', ha', hga⟩, pos, vs, rfl, as', has', hgas⟩
      exact ⟨a' :: as', .next ha' rfl has', by simp [hga, hgas]⟩

/-! ## Expressions -/

/-- The tokens spell the expression as an operand, up to positions. -/
def Expr.Means (e : Expr) (ts : List Token) : Prop :=
  ∃ e', Expr.Spelled .primary ts e' ∧ e'.bare = e.bare

/-- The text of an expression can stand after a sign, and is read back. -/
structure Expr.Prints (o : ScanOptions) (e : Expr) : Prop where
  first : ∃ c cs, e.format.toList = c :: cs ∧ c ≠ '='
  scans : Scans o e.format.toList e.Means

/-- An operand spells all that a rule of operators spells. -/
theorem Expr.Spelled.atLeast_of_primary (h : Expr.Spelled .primary ts e) {n : Nat} (hn : n ≤ 14) :
    Expr.Spelled (Rule.atLeast n) ts e :=
  Expr.Spelled.atLeast_mono hn (.atom h)

theorem Expr.Spelled.expr_of_primary (h : Expr.Spelled .primary ts e) : Expr.Spelled .expr ts e :=
  .operators (h.atLeast_of_primary (n := 0) (by decide))

theorem Expr.Means.spelled (h : e.Means ts) :
    ∃ e', Expr.Spelled .expr ts e' ∧ e'.bare = e.bare := by
  obtain ⟨e', he', hbare⟩ := h
  exact ⟨e', he'.expr_of_primary, hbare⟩

theorem Expr.format_binary (p : Pos) (op : BinaryOp) (l r : Expr) :
    (Expr.binary p op l r).format =
      "(" ++ l.format ++ " " ++ op.kind.text ++ " " ++ r.format ++ ")" := by
  cases op <;> rw [Expr.binary, Expr.format] <;> rfl

theorem Expr.formatArgs_eq_map (es : List Expr) :
    Expr.formatArgs (es.map (false, ·)) = es.map Expr.format := by
  induction es with
  | nil => rfl
  | cons e es ih =>
    simp only [List.map_cons, Expr.formatArgs, ih]
    simp

theorem int64?_of_isDigit (h : ∀ c ∈ cs, isDigit c = true) : int64? cs =
    (decimal? cs).bind fun n => if n < wordBound then some (n : Int) else none := by
  have hsign : isDigit '-' = false ∧ isDigit '+' = false := ⟨rfl, rfl⟩
  unfold int64?
  split
  · have hminus := h '-' List.mem_cons_self
    rw [hsign.1] at hminus
    contradiction
  · have hplus := h '+' List.mem_cons_self
    rw [hsign.2] at hplus
    contradiction
  · rfl

/-- Digits denote a number that is not negative. -/
theorem nonneg_of_int64? (h : ∀ c ∈ cs, isDigit c = true) {n : Int}
    (hn : int64? cs = some n) : ∃ m : Nat, n = m ∧ (m : Int) < wordBound := by
  rw [int64?_of_isDigit h] at hn
  obtain ⟨m, -, hm⟩ := Option.bind_eq_some_iff.1 hn
  obtain ⟨hbound, heq⟩ := Option.ite_none_right_eq_some.1 hm
  exact ⟨m, (Option.some.inj heq).symm, hbound⟩

theorem Expr.prints_int (p : Pos) {n : Nat} (hn : (n : Int) < wordBound) :
    (Expr.int p n).Prints o := by
  have hdigits : ∀ c ∈ n.repr.toList, isDigit c = true := fun c hc =>
    (isDigit_of_decimal (isDigit_of_mem_repr hc)).1
  have hread : int64? n.repr.toList = some (n : Int) := by
    rw [int64?_of_isDigit hdigits, decimal?_repr, Option.bind_some, if_pos hn]
  have hformat : (Expr.int p n).format = n.repr := rfl
  refine ⟨?_, ?_⟩
  · obtain ⟨c, cs, hcs⟩ := List.exists_cons_of_ne_nil (repr_ne_nil n)
    refine ⟨c, cs, hcs, ?_⟩
    rintro rfl
    have hdigit : ('=' : Char).isDigit = true := isDigit_of_mem_repr (by rw [hcs]; simp)
    cases hdigit
  · have hscan := Scans.number (o := o) n breaks_nil Scans.nil
    rw [hformat, ← List.append_nil n.repr.toList]
    refine hscan.mono ?_
    rintro _ ⟨pos, _, rfl, rfl⟩
    exact ⟨_, .number rfl hread, rfl⟩

theorem Expr.prints_bool (p : Pos) (b : Bool) : (Expr.bool p b).Prints o := by
  cases b with
  | true =>
    refine ⟨⟨'t', "rue".toList, by simp, by decide⟩, ?_⟩
    have hscan := Scans.keyword (o := o) (k := .kwTrue) (by decide) breaks_nil Scans.nil
    rw [List.append_nil] at hscan
    refine hscan.mono ?_
    rintro _ ⟨_, _, rfl, rfl⟩
    exact ⟨_, .true rfl, rfl⟩
  | false =>
    refine ⟨⟨'f', "alse".toList, by simp, by decide⟩, ?_⟩
    have hscan := Scans.keyword (o := o) (k := .kwFalse) (by decide) breaks_nil Scans.nil
    rw [List.append_nil] at hscan
    refine hscan.mono ?_
    rintro _ ⟨_, _, rfl, rfl⟩
    exact ⟨_, .false rfl, rfl⟩

theorem IsName.first (hx : IsName x) : ∃ c cs, x.toList = c :: cs ∧ c ≠ '=' := by
  obtain ⟨c, cs, hcs, hc⟩ := hx.start
  refine ⟨c, cs, hcs, ?_⟩
  rintro rfl
  have hsign : isWordStart '=' = false := rfl
  rw [hsign] at hc
  contradiction

theorem Expr.prints_var (p : Pos) (hx : IsName x) : (Expr.var ⟨p, x, none⟩).Prints o := by
  refine ⟨hx.first, ?_⟩
  have hscan := Scans.name (o := o) hx breaks_nil Scans.nil
  rw [List.append_nil] at hscan
  refine hscan.mono ?_
  rintro _ ⟨pos, _, rfl, rfl⟩
  exact ⟨_, .var rfl, rfl⟩

theorem Expr.prints_assign (p q : Pos) (hx : IsName x) (he : e.Prints o) :
    (Expr.assign p ⟨q, x, none⟩ e).Prints o := by
  have htext : (Expr.assign p ⟨q, x, none⟩ e).format.toList =
      '(' :: (x.toList ++ ' ' :: '=' :: ' ' :: (e.format.toList ++ [')'])) := by
    simp
  refine ⟨by simp, ?_⟩
  have hvalue := he.scans.append (by simp) Scans.nil.rightParen
  have hscan := (Scans.name hx (by simp) hvalue.assignSign.blank).leftParen
  rw [htext]
  refine hscan.mono ?_
  rintro _ ⟨_, _, rfl, _, _, rfl, _, _, rfl, us, _, rfl, hus, _, _, rfl, rfl⟩
  obtain ⟨e', he', hbare⟩ := hus.spelled
  exact ⟨_, .parens rfl rfl (.assign rfl rfl he'), by simp [Variable.bare, hbare]⟩

theorem Expr.prints_unary (p : Pos) (hk : k = .minus ∨ k = .not) (he : e.Prints o) :
    (Expr.unary p (.ofKind k) e).Prints o := by
  have htext : (Expr.unary p (.ofKind k) e).format.toList =
      '(' :: (k.text.toList ++ (e.format.toList ++ [')'])) := by
    simp [UnaryOp.kind_ofKind]
  refine ⟨by simp, ?_⟩
  have hoperand := he.scans.append (by simp) Scans.nil.rightParen
  -- no operand begins with `=`, the only character that a sign could be glued to
  have hfollow : ∀ rest, Breaks rest → ∀ c ∈ (e.format.toList ++ [')'] ++ rest).head?,
      c ∉ k.glue := by
    intro rest _ c hc
    obtain ⟨d, ds, hds, hne⟩ := he.first
    rw [hds] at hc
    cases hc
    obtain rfl | rfl := hk <;> simp [TokenKind.glue, hne]
  have hsymbol : k ∈ TokenKind.symbols := by obtain rfl | rfl := hk <;> decide
  rw [htext]
  refine (Scans.symbol hsymbol hfollow hoperand).leftParen.mono ?_
  rintro _ ⟨_, _, rfl, q, _, rfl, us, _, rfl, ⟨e', he', hbare⟩, _, _, rfl, rfl⟩
  have hsigned : Expr.Spelled (Rule.atLeast 14) (⟨k, "", q⟩ :: us) _ := .sign hk (.atom he')
  have hexpr := Expr.Spelled.operators (Expr.Spelled.atLeast_mono (Nat.zero_le 14) hsigned)
  exact ⟨_, .parens rfl rfl hexpr, by simp [hbare]⟩

theorem Rule.operators_symbols (r : Rule) : ∀ k ∈ r.operators, k ∈ TokenKind.symbols := by
  cases r <;> decide

theorem Expr.prints_binary (p : Pos) {rule : Rule} (hk : k ∈ rule.operators) {l r : Expr}
    (hl : l.Prints o) (hr : r.Prints o) : (Expr.binary p (.ofKind k) l r).Prints o := by
  have htext : (Expr.binary p (.ofKind k) l r).format.toList =
      '(' :: (l.format.toList ++ ' ' :: (k.text.toList ++ ' ' :: (r.format.toList ++ [')']))) := by
    simp [Expr.format_binary, BinaryOp.kind_ofKind]
  refine ⟨by simp [htext], ?_⟩
  have hsymbol := rule.operators_symbols k hk
  have hright := hr.scans.append (by simp) Scans.nil.rightParen
  have hleft := hl.scans.append (by simp) (Scans.operator hsymbol hright).blank
  rw [htext]
  refine hleft.leftParen.mono ?_
  rintro _ ⟨_, _, rfl, us, _, rfl, ⟨l', hl', hbare⟩, q, _, rfl, vs, _, rfl, ⟨r', hr', hbare'⟩,
    _, _, rfl, rfl⟩
  obtain ⟨hop, hoperand, hlevel⟩ := Rule.atLeast_level (Rule.level_operator hk)
  have hkind : Token.kind ⟨k, "", q⟩ ∈ (Rule.atLeast rule.level).operators := hop
  have hall := Expr.Spelled.operation hoperand hkind (hl'.atLeast_of_primary (by omega))
    (hr'.atLeast_of_primary (by omega))
  have hexpr := Expr.Spelled.operators (Expr.Spelled.atLeast_mono (Nat.zero_le _) hall)
  refine ⟨_, by simpa using Expr.Spelled.parens rfl rfl hexpr, ?_⟩
  rw [Expr.bare_binary, Expr.bare_binary, hbare, hbare']

theorem Expr.prints_call (p : Pos) {f : String} (hf : IsName f) (es : List Expr)
    (hes : ∀ e ∈ es, e.Prints o) : (Expr.call p f (es.map (false, ·)) none).Prints o := by
  have htext : (Expr.call p f (es.map (false, ·)) none).format.toList =
      f.toList ++ '(' :: ((", ".intercalate (es.map Expr.format)).toList ++ [')']) := by
    rw [Expr.format, Expr.formatArgs_eq_map]
    simp
  refine ⟨?_, ?_⟩
  · obtain ⟨c, cs, hcs, hc⟩ := hf.first
    exact ⟨c, _, by rw [htext, hcs]; rfl, hc⟩
  rw [htext]
  cases es with
  | nil =>
    have hscan := Scans.name (o := o) hf (by simp) Scans.nil.rightParen.leftParen
    refine hscan.mono ?_
    rintro _ ⟨_, _, rfl, _, _, rfl, _, _, rfl, rfl⟩
    exact ⟨_, .callEmpty rfl rfl rfl, rfl⟩
  | cons e es =>
    have hne : e :: es ≠ [] := nofun
    have hargs := Scans.commas (Expr.Spelled .expr) Expr.bare hne fun e he =>
      (hes e he).scans.mono fun _ => Expr.Means.spelled
    have hclose := hargs.append (by simp) Scans.nil.rightParen
    refine (Scans.name hf (by simp) hclose.leftParen).mono ?_
    rintro _ ⟨_, _, rfl, _, _, rfl, _, _, rfl, ⟨es', hes', hbare⟩, _, _, rfl, rfl⟩
    obtain ⟨us, e', more, rfl, he', hcommas, hmore, rfl⟩ := hes'.toArgs
    refine ⟨_, .call rfl rfl rfl he' hcommas hmore, ?_⟩
    have hmap (es : List Expr) :
        Expr.bareAll (es.map (false, ·)) = (es.map Expr.bare).map (false, ·) := by
      simp [Expr.bareAll_eq_map]
    rw [Expr.bare, Expr.bare, hmap, hmap, hbare]

/-- The text of an expression that was read from legible tokens is read back. -/
theorem Expr.Spelled.prints (o : ScanOptions) {r : Rule} (h : Expr.Spelled r ts e)
    (hts : ∀ t ∈ ts, t.Legible) : e.Prints o := by
  induction h with
  | assign hx _ _ ih =>
    simp only [List.forall_mem_cons] at hts
    exact Expr.prints_assign _ _ (hts.1.identifier hx) (ih hts.2.2)
  | operators _ ih | operand _ _ ih | atom _ ih => exact ih hts
  | operation _ hop _ _ ihl ihr =>
    simp only [List.forall_mem_append, List.forall_mem_cons] at hts
    exact Expr.prints_binary _ hop (ihl hts.1) (ihr hts.2.2)
  | sign hk _ ih =>
    simp only [List.forall_mem_cons] at hts
    exact Expr.prints_unary _ hk (ih hts.2)
  | @number t n hk hn =>
    have hdigits := (hts t List.mem_cons_self).number hk
    obtain ⟨m, rfl, hm⟩ := nonneg_of_int64? hdigits hn
    exact Expr.prints_int _ hm
  | true | false => exact Expr.prints_bool _ _
  | @var t hk => exact Expr.prints_var _ ((hts t List.mem_cons_self).identifier hk)
  | @callEmpty f _ _ hf =>
    exact Expr.prints_call _ ((hts f List.mem_cons_self).identifier hf) [] nofun
  | @call f lp rp ts e more hf _ _ _ _ _ ih ihs =>
    have hname := (hts f List.mem_cons_self).identifier hf
    refine Expr.prints_call _ hname (e :: more.map NextArg.arg) ?_
    intro a ha
    rcases List.mem_cons.1 ha with rfl | ha
    · exact ih fun t ht => hts t (by simp [ht])
    · obtain ⟨m, hm, rfl⟩ := List.mem_map.1 ha
      refine ihs m hm fun t ht => hts t ?_
      have hmem : t ∈ more.flatMap fun m => m.comma :: m.tokens :=
        List.mem_flatMap.2 ⟨m, hm, List.mem_cons_of_mem _ ht⟩
      simp [hmem]
  | parens _ _ _ ih => exact ih fun t ht => hts t (by simp [ht])

/-! ## Declarations -/

theorem Expr.Spelled.ne_absent {r : Rule} (h : Expr.Spelled r ts e) : e ≠ .absent := by
  induction h with
  | operators _ ih | operand _ _ ih | atom _ ih | parens _ _ _ ih => exact ih
  | @operation _ _ op => cases BinaryOp.ofKind op.kind <;> nofun
  | _ => nofun

theorem Expr.SpelledOrAbsent.scans_format (o : ScanOptions) (h : Expr.SpelledOrAbsent ts e)
    (hts : ∀ t ∈ ts, t.Legible) :
    Scans o e.format.toList fun us => ∃ e', Expr.SpelledOrAbsent us e' ∧ e'.bare = e.bare := by
  cases h with
  | absent => exact Scans.nil.mono fun us hus => ⟨.absent, hus ▸ .absent, rfl⟩
  | present he =>
    refine (he.prints o hts).scans.mono ?_
    rintro us ⟨e', he', hbare⟩
    exact ⟨e', .present he'.expr_of_primary, hbare⟩

theorem Ty.text_ofKind (hk : k.isType = true) : (Ty.ofKind k).text = k.text := by
  cases k <;> first | rfl | cases hk

theorem TokenKind.mem_keywords_of_isType (hk : k.isType = true) : k ∈ keywords := by
  cases k <;> first | decide | cases hk

theorem Local.Spelled.scans_format (o : ScanOptions) {v : Local} (h : Local.Spelled ts v)
    (hts : ∀ t ∈ ts, t.Legible) :
    Scans o v.format.toList fun us => ∃ v', Local.Spelled us v' ∧ v'.bare = v.bare := by
  cases h with
  | @bare x hx =>
    have hname := (hts x List.mem_cons_self).identifier hx
    have htext : (Local.mk x.pos x.value .absent none).format.toList = x.value.toList ++ [] := by
      simp [Local.format, Expr.isAbsent]
    rw [htext]
    refine (Scans.name hname breaks_nil Scans.nil).mono ?_
    rintro _ ⟨_, _, rfl, rfl⟩
    exact ⟨_, .bare rfl, rfl⟩
  | @init x sign ts e hx _ he =>
    simp only [List.forall_mem_cons] at hts
    have htext : (Local.mk x.pos x.value e none).format.toList =
        x.value.toList ++ ' ' :: '=' :: ' ' :: e.format.toList := by
      have habsent : e.isAbsent = false := by
        have := he.ne_absent
        cases e <;> first | rfl | contradiction
      simp [Local.format, habsent]
    rw [htext]
    have hvalue := (he.prints o hts.2.2).scans
    refine (Scans.name (hts.1.identifier hx) (by simp) hvalue.assignSign.blank).mono ?_
    rintro _ ⟨_, _, rfl, _, us, rfl, hus⟩
    obtain ⟨e', he', hbare⟩ := hus.spelled
    exact ⟨_, .init rfl rfl he', by simp [Local.bare, hbare]⟩

/-- Legible tokens of the members of a list. -/
theorem SpelledList.members {α : Type} {spelled : List Token → α → Prop} {as : List α}
    (h : SpelledList spelled ts as) (hts : ∀ t ∈ ts, t.Legible) :
    as ≠ [] ∧ ∀ a ∈ as, ∃ us, spelled us a ∧ ∀ t ∈ us, t.Legible := by
  induction h with
  | last ha => exact ⟨nofun, by simpa using ⟨_, ha, hts⟩⟩
  | next ha _ _ ih =>
    simp only [List.forall_mem_append, List.forall_mem_cons] at hts
    refine ⟨nofun, ?_⟩
    simp only [List.forall_mem_cons]
    exact ⟨⟨_, ha, hts.1⟩, (ih hts.2.2).2⟩

theorem Stmt.Declares.scans_format (o : ScanOptions) {s : Stmt} (h : Stmt.Declares ts s)
    (hts : ∀ t ∈ ts, t.Legible) :
    Scans o s.format.toList fun us => ∃ vs pos s', us = vs ++ [⟨.semicolon, "", pos⟩] ∧
      Stmt.Declares vs s' ∧ s'.bare = s.bare := by
  obtain ⟨ht, hvars⟩ := h
  rename_i t ts vars
  simp only [List.forall_mem_cons] at hts
  have htext : (Stmt.locals t.pos (.ofKind t.kind) vars).format.toList =
      t.kind.text.toList ++ ' ' :: ((", ".intercalate (vars.map Local.format)).toList ++ [';']) := by
    simp [Ty.text_ofKind ht]
  obtain ⟨hne, hmembers⟩ := hvars.members hts.2
  have hlist := Scans.commas Local.Spelled Local.bare hne fun v hv => by
    obtain ⟨us, hv', hus⟩ := hmembers v hv
    exact hv'.scans_format o hus
  have hclose := hlist.append (by simp) Scans.nil.semicolon
  rw [htext]
  have hkeyword := TokenKind.mem_keywords_of_isType ht
  refine (Scans.keyword hkeyword (by simp) hclose.blank).mono ?_
  rintro _ ⟨p, _, rfl, vs, _, rfl, ⟨vars', hvars', hbare⟩, q, _, rfl, rfl⟩
  refine ⟨⟨t.kind, t.kind.text, p⟩ :: vs, q, _, rfl, .locals ht hvars', ?_⟩
  simp [hbare]

/-! ## Statements -/

/-- The tokens spell the statement, up to positions. -/
def Stmt.Means (allows : Feature → Bool) (s : Stmt) (ts : List Token) : Prop :=
  ∃ s', Stmt.Spelled allows ts s' ∧ s'.bare = s.bare

/-- The text of a statement is read back. -/
def Stmt.Prints (o : ScanOptions) (allows : Feature → Bool) (s : Stmt) : Prop :=
  Scans o s.format.toList (s.Means allows)

theorem Stmt.endsOpen_bare : (s : Stmt) → s.bare.endsOpen = s.endsOpen
  | .cond p test yes no => by
    by_cases hno : no = .absent
    · subst hno
      rfl
    · rw [Stmt.bare, Stmt.endsOpen_cond hno, Stmt.endsOpen_cond (by simpa [Stmt.bare_eq_absent]),
        Stmt.endsOpen_bare no]
  | .whileLoop _ _ body => Stmt.endsOpen_bare body
  | .forLoop _ _ _ _ body => Stmt.endsOpen_bare body
  | .absent | .block _ _ | .empty _ | .expr _ _ | .locals _ _ _ => rfl
  | .breakLoop _ | .continueLoop _ | .ret _ _ => rfl

theorem Stmt.formatAll_eq_map (stmts : List Stmt) :
    Stmt.formatAll stmts = stmts.map Stmt.format := by
  induction stmts with
  | nil => rfl
  | cons s stmts ih => rw [Stmt.formatAll, ih]; rfl

theorem Stmt.format_cond {p : Pos} {yes no : Stmt} (h : no ≠ .absent) :
    (Stmt.cond p test yes no).format =
      "if (" ++ test.format ++ ") " ++ yes.format ++ " else " ++ no.format := by
  rw [Stmt.format]
  exact h

/-- The text before the test of a `for` loop: its first part with a semicolon. -/
def Stmt.initText : Stmt → String
  | .absent => ";"
  | s => s.format

theorem Stmt.format_forLoop (p : Pos) (init : Stmt) (test step : Expr) (body : Stmt) :
    (Stmt.forLoop p init test step body).format = "for (" ++ init.initText ++ " " ++
      test.format ++ "; " ++ step.format ++ ") " ++ body.format := by
  cases init <;> simp [Stmt.initText, String.append_assoc]

theorem Stmt.format_ret {p : Pos} (h : e ≠ .absent) :
    (Stmt.ret p e).format = "return " ++ e.format ++ ";" := by
  rw [Stmt.format]
  exact h

section Statements

variable {o : ScanOptions} {allows : Feature → Bool} {ts : List Token}

theorem Expr.Prints.scans_semicolon {e : Expr} (he : e.Prints o) :
    Scans o (e.format.toList ++ [';']) fun us => ∃ t ts e' pos,
      us = t :: ts ++ [⟨.semicolon, "", pos⟩] ∧ Expr.Spelled .expr (t :: ts) e' ∧
        e'.bare = e.bare := by
  refine (he.scans.append (by simp) Scans.nil.semicolon).mono ?_
  rintro _ ⟨us, _, rfl, hus, pos, _, rfl, rfl⟩
  obtain ⟨e', he', hbare⟩ := hus.spelled
  obtain ⟨t, ts, rfl⟩ := he'.exists_cons
  exact ⟨t, ts, e', pos, rfl, he', hbare⟩

theorem Stmt.SpelledInit.scans_initText (o : ScanOptions) {s : Stmt}
    (h : Stmt.SpelledInit ts s) (hts : ∀ t ∈ ts, t.Legible) :
    Scans o s.initText.toList fun us => ∃ vs pos s', us = vs ++ [⟨.semicolon, "", pos⟩] ∧
      Stmt.SpelledInit vs s' ∧ s'.bare = s.bare := by
  cases h with
  | absent =>
    refine Scans.nil.semicolon.mono ?_
    rintro _ ⟨pos, _, rfl, rfl⟩
    exact ⟨[], pos, _, rfl, .absent, rfl⟩
  | declares hdecl =>
    have hscan := hdecl.scans_format o hts
    obtain ⟨ht, hvars⟩ := hdecl
    refine hscan.mono ?_
    rintro _ ⟨vs, pos, s', rfl, hs', hbare⟩
    exact ⟨vs, pos, s', rfl, .declares hs', hbare⟩
  | @expr t ts e he =>
    have htext : (Stmt.expr t.pos e).initText.toList = e.format.toList ++ [';'] := by
      simp [Stmt.initText, Stmt.format]
    rw [htext]
    refine (he.prints o hts).scans_semicolon.mono ?_
    rintro _ ⟨t', ts', e', pos, rfl, he', hbare⟩
    exact ⟨_, pos, _, rfl, .expr he', by simp [hbare]⟩

theorem Expr.Prints.scans_header (hk : k ∈ TokenKind.keywords)
    (htest : test.Prints o) {P : List Token → Prop} (h : Scans o cs P) :
    Scans o (k.text.toList ++ ' ' :: '(' :: (test.format.toList ++ ')' :: ' ' :: cs)) fun ts =>
      ∃ t lp rp us vs test', ts = t :: lp :: (us ++ rp :: vs) ∧ t.kind = k ∧
        lp.kind = .leftParen ∧ Expr.Spelled .expr us test' ∧ test'.bare = test.bare ∧
        rp.kind = .rightParen ∧ P vs := by
  have hclose := htest.scans.append (by simp) h.blank.rightParen
  refine (Scans.keyword hk (by simp) hclose.leftParen.blank).mono ?_
  rintro _ ⟨p, _, rfl, q, _, rfl, us, _, rfl, hus, r, vs, rfl, hvs⟩
  obtain ⟨test', htest', hbare⟩ := hus.spelled
  exact ⟨_, _, _, us, vs, test', rfl, rfl, rfl, htest', hbare, rfl, hvs⟩

theorem Stmt.scans_formatAll {stmts : List Stmt} (h : ∀ s ∈ stmts, s.Prints o allows) :
    Scans o (" ".intercalate (Stmt.formatAll stmts)).toList fun ts =>
      ∃ items : List (List Token × Stmt), ts = items.flatMap Prod.fst ∧
        (∀ i ∈ items, Stmt.Spelled allows i.1 i.2) ∧
        (items.map Prod.snd).map Stmt.bare = stmts.map Stmt.bare := by
  rw [Stmt.formatAll_eq_map]
  induction stmts with
  | nil => exact Scans.nil.mono fun ts hts => ⟨[], hts, by simp, rfl⟩
  | cons s stmts ih =>
    have hs : Scans o s.format.toList (s.Means allows) := h s List.mem_cons_self
    have hmore := ih fun x hx => h x (List.mem_cons_of_mem _ hx)
    cases stmts with
    | nil =>
      simp only [List.map_cons, List.map_nil, String.intercalate_singleton]
      refine hs.mono ?_
      rintro ts ⟨s', hs', hbare⟩
      exact ⟨[(ts, s')], by simp, by simpa using hs', by simp [hbare]⟩
    | cons s₂ stmts =>
      simp only [List.map_cons] at hmore ⊢
      rw [toList_intercalate_cons]
      refine (hs.append (by simp) hmore.blank).mono ?_
      rintro _ ⟨us, vs, rfl, ⟨s', hs', hbare⟩, items, rfl, hitems, hbares⟩
      refine ⟨(us, s') :: items, by simp, ?_, by simp [hbare, hbares]⟩
      simpa using ⟨hs', fun a b => hitems (a, b)⟩

theorem Stmt.prints_block (p : Pos) {stmts : List Stmt} (h : ∀ s ∈ stmts, s.Prints o allows) :
    (Stmt.block p stmts).Prints o allows := by
  have htext : (Stmt.block p stmts).format.toList =
      '\x7b' :: ' ' :: ((" ".intercalate (Stmt.formatAll stmts)).toList ++ [' ', '\x7d']) := by
    simp
  have hclose := (Stmt.scans_formatAll h).append (by simp) Scans.nil.rightBrace.blank
  unfold Stmt.Prints
  rw [htext]
  refine hclose.blank.leftBrace.mono ?_
  rintro _ ⟨_, _, rfl, _, _, rfl, ⟨items, rfl, hitems, hbare⟩, _, _, rfl, rfl⟩
  refine ⟨_, .block rfl rfl hitems, ?_⟩
  simp only [Stmt.bare, Stmt.bareAll_eq_map, hbare]

theorem Stmt.prints_cond (p : Pos) {yes : Stmt} (htest : test.Prints o)
    (hyes : yes.Prints o allows) : (Stmt.cond p test yes .absent).Prints o allows := by
  have htext : (Stmt.cond p test yes .absent).format.toList = TokenKind.kwIf.text.toList ++
      ' ' :: '(' :: (test.format.toList ++ ')' :: ' ' :: yes.format.toList) := by
    simp [TokenKind.text]
  unfold Stmt.Prints
  rw [htext]
  refine (htest.scans_header (by decide) hyes).mono ?_
  rintro _ ⟨t, lp, rp, us, vs, test', rfl, ht, hlp, htest', hbare, hrp, yes', hyes', hbare'⟩
  exact ⟨_, .cond ht hlp htest' hrp hyes', by simp [hbare, hbare']⟩

theorem Stmt.prints_condElse (p : Pos) {yes no : Stmt} (htest : test.Prints o)
    (hyes : yes.Prints o allows) (hopen : yes.endsOpen = false) (habsent : no ≠ .absent)
    (hno : no.Prints o allows) : (Stmt.cond p test yes no).Prints o allows := by
  have htext : (Stmt.cond p test yes no).format.toList = TokenKind.kwIf.text.toList ++
      ' ' :: '(' :: (test.format.toList ++ ')' :: ' ' :: (yes.format.toList ++
        ' ' :: (TokenKind.kwElse.text.toList ++ ' ' :: no.format.toList))) := by
    simp [Stmt.format_cond habsent, TokenKind.text]
  have helse := Scans.keyword (k := .kwElse) (by decide) (by simp) (Scans.blank hno)
  have hboth := Scans.append hyes (by simp) helse.blank
  unfold Stmt.Prints
  rw [htext]
  refine (htest.scans_header (by decide) hboth).mono ?_
  rintro _ ⟨t, lp, rp, us, _, test', rfl, ht, hlp, htest', hbare, hrp, vs, _, rfl,
    ⟨yes', hyes', hbare'⟩, _, ws, rfl, no', hno', hbare''⟩
  -- whether a statement ends open does not depend on positions
  have hopen' : yes'.endsOpen = false := by
    rw [← Stmt.endsOpen_bare, hbare', Stmt.endsOpen_bare, hopen]
  refine ⟨_, .condElse ht hlp htest' hrp hyes' hopen' rfl hno', ?_⟩
  simp [hbare, hbare', hbare'']

theorem Stmt.prints_whileLoop (p : Pos) {body : Stmt} (htest : test.Prints o)
    (hbody : body.Prints o allows) : (Stmt.whileLoop p test body).Prints o allows := by
  have htext : (Stmt.whileLoop p test body).format.toList = TokenKind.kwWhile.text.toList ++
      ' ' :: '(' :: (test.format.toList ++ ')' :: ' ' :: body.format.toList) := by
    simp [TokenKind.text]
  unfold Stmt.Prints
  rw [htext]
  refine (htest.scans_header (by decide) hbody).mono ?_
  rintro _ ⟨t, lp, rp, us, vs, test', rfl, ht, hlp, htest', hbare, hrp, body', hbody', hbare'⟩
  exact ⟨_, .whileLoop ht hlp htest' hrp hbody', by simp [hbare, hbare']⟩

theorem Stmt.prints_forLoop (p : Pos) (hallows : allows .forLoops = true) {ts us vs : List Token}
    {init : Stmt} {test step : Expr} {body : Stmt} (hinit : Stmt.SpelledInit ts init)
    (hts : ∀ t ∈ ts, t.Legible) (htest : Expr.SpelledOrAbsent us test) (hus : ∀ t ∈ us, t.Legible)
    (hstep : Expr.SpelledOrAbsent vs step) (hvs : ∀ t ∈ vs, t.Legible)
    (hbody : body.Prints o allows) : (Stmt.forLoop p init test step body).Prints o allows := by
  have htext : (Stmt.forLoop p init test step body).format.toList =
      TokenKind.kwFor.text.toList ++ ' ' :: '(' :: (init.initText.toList ++ ' ' ::
        (test.format.toList ++ ';' :: ' ' :: (step.format.toList ++
          ')' :: ' ' :: body.format.toList))) := by
    simp [Stmt.format_forLoop, TokenKind.text]
  have hfromStep := (hstep.scans_format o hvs).append (by simp) (Scans.blank hbody).rightParen
  have hfromTest := (htest.scans_format o hus).append (by simp) hfromStep.blank.semicolon
  have hfromInit := (hinit.scans_initText o hts).append (by simp) hfromTest.blank
  unfold Stmt.Prints
  rw [htext]
  refine (Scans.keyword (by decide) (by simp) hfromInit.leftParen.blank).mono ?_
  rintro _ ⟨p₀, _, rfl, _, _, rfl, _, _, rfl, ⟨xs, p₁, init', rfl, hinit', hbare₁⟩,
    ys, _, rfl, ⟨test', htest', hbare₂⟩, p₂, _, rfl, zs, _, rfl, ⟨step', hstep', hbare₃⟩,
    p₃, _, rfl, body', hbody', hbare₄⟩
  have hsemi : Token.kind ⟨.semicolon, "", p₁⟩ = .semicolon := rfl
  refine ⟨.forLoop p₀ init' test' step' body', ?_, ?_⟩
  · simpa using Stmt.Spelled.forLoop hallows rfl rfl hinit' hsemi htest' rfl hstep' rfl hbody'
  · simp [hbare₁, hbare₂, hbare₃, hbare₄]

theorem Stmt.prints_ret (p : Pos) {e : Expr} (he : Expr.SpelledOrAbsent ts e)
    (hts : ∀ t ∈ ts, t.Legible) : (Stmt.ret p e).Prints o allows := by
  unfold Stmt.Prints
  cases he with
  | absent =>
    have htext : (Stmt.ret p .absent).format.toList =
        TokenKind.kwReturn.text.toList ++ [';'] := by
      simp [TokenKind.text]
    rw [htext]
    refine (Scans.keyword (by decide) (by simp) Scans.nil.semicolon).mono ?_
    rintro _ ⟨_, _, rfl, _, _, rfl, rfl⟩
    exact ⟨_, .ret rfl .absent rfl, rfl⟩
  | present he =>
    have htext : (Stmt.ret p e).format.toList = TokenKind.kwReturn.text.toList ++
        ' ' :: (e.format.toList ++ [';']) := by
      simp [Stmt.format_ret he.ne_absent, TokenKind.text]
    rw [htext]
    have hvalue := (he.prints o hts).scans_semicolon
    refine (Scans.keyword (by decide) (by simp) hvalue.blank).mono ?_
    rintro _ ⟨_, _, rfl, t, us, e', _, rfl, he', hbare⟩
    exact ⟨_, .ret rfl (.present he') rfl, by simp [hbare]⟩

/-- The text of a statement that was read from legible tokens is read back. -/
theorem Stmt.Spelled.prints (o : ScanOptions) {s : Stmt}
    (h : Stmt.Spelled allows ts s) (hts : ∀ t ∈ ts, t.Legible) : s.Prints o allows := by
  induction h with
  | @block lb rb items _ _ _ ih =>
    refine Stmt.prints_block _ ?_
    intro s hs
    obtain ⟨i, hi, rfl⟩ := List.mem_map.1 hs
    refine ih i hi fun t ht => hts t ?_
    have hmem : t ∈ items.flatMap Prod.fst := List.mem_flatMap.2 ⟨i, hi, ht⟩
    simp [hmem]
  | @empty t =>
    have htext : (Stmt.empty t.pos).format.toList = [';'] := by simp
    unfold Stmt.Prints
    rw [htext]
    refine Scans.nil.semicolon.mono ?_
    rintro _ ⟨_, _, rfl, rfl⟩
    exact ⟨_, .empty rfl, rfl⟩
  | locals hdecl _ =>
    simp only [List.forall_mem_append] at hts
    refine (hdecl.scans_format o hts.1).mono ?_
    rintro _ ⟨vs, _, s', rfl, hs', hbare⟩
    exact ⟨s', .locals hs' rfl, hbare⟩
  | cond _ _ htest _ _ ih =>
    simp only [List.forall_mem_cons, List.forall_mem_append] at hts
    exact Stmt.prints_cond _ (htest.prints o hts.2.2.1) (ih hts.2.2.2.2)
  | condElse _ _ htest _ _ hopen _ hno ihyes ihno =>
    simp only [List.forall_mem_cons, List.forall_mem_append] at hts
    exact Stmt.prints_condElse _ (htest.prints o hts.2.2.1) (ihyes hts.2.2.2.2.1) hopen
      hno.ne_absent (ihno hts.2.2.2.2.2.2)
  | whileLoop _ _ htest _ _ ih =>
    simp only [List.forall_mem_cons, List.forall_mem_append] at hts
    exact Stmt.prints_whileLoop _ (htest.prints o hts.2.2.1) (ih hts.2.2.2.2)
  | forLoop hallows _ _ hinit _ htest _ hstep _ _ ih =>
    simp only [List.forall_mem_cons, List.forall_mem_append] at hts
    obtain ⟨-, -, hinits, -, htests, -, hsteps, -, hbody⟩ := hts
    exact Stmt.prints_forLoop _ hallows hinit hinits htest htests hstep hsteps (ih hbody)
  | @breakLoop t =>
    have htext : (Stmt.breakLoop t.pos).format.toList =
        TokenKind.kwBreak.text.toList ++ [';'] := by simp [TokenKind.text]
    unfold Stmt.Prints
    rw [htext]
    refine (Scans.keyword (by decide) (by simp) Scans.nil.semicolon).mono ?_
    rintro _ ⟨_, _, rfl, _, _, rfl, rfl⟩
    exact ⟨_, .breakLoop rfl rfl, rfl⟩
  | @continueLoop t _ hallows =>
    have htext : (Stmt.continueLoop t.pos).format.toList =
        TokenKind.kwContinue.text.toList ++ [';'] := by simp [TokenKind.text]
    unfold Stmt.Prints
    rw [htext]
    refine (Scans.keyword (by decide) (by simp) Scans.nil.semicolon).mono ?_
    rintro _ ⟨_, _, rfl, _, _, rfl, rfl⟩
    exact ⟨_, .continueLoop hallows rfl rfl, rfl⟩
  | ret _ he _ =>
    simp only [List.forall_mem_cons, List.forall_mem_append] at hts
    exact Stmt.prints_ret _ he hts.2.1
  | @expr t semi ts e he _ =>
    simp only [List.forall_mem_append] at hts
    have htext : (Stmt.expr t.pos e).format.toList = e.format.toList ++ [';'] := by
      simp
    unfold Stmt.Prints
    rw [htext]
    refine (he.prints o hts.1).scans_semicolon.mono ?_
    rintro _ ⟨t', ts', e', _, rfl, he', hbare⟩
    exact ⟨_, .expr he' rfl, by simp [hbare]⟩

end Statements

/-! ## Functions -/

theorem Param.Spelled.scans_format (o : ScanOptions) {v : Param} (h : Param.Spelled allows ts v)
    (hts : ∀ t ∈ ts, t.Legible) :
    Scans o v.format.toList fun us => ∃ v', Param.Spelled allows us v' ∧ v'.bare = v.bare := by
  cases h with
  | @byValue t x ht hx =>
    have hname := (hts x (by simp)).identifier hx
    have htext : (Param.mk x.pos (.ofKind t.kind) x.value false none).format.toList =
        t.kind.text.toList ++ ' ' :: (x.value.toList ++ []) := by
      simp [Param.format, Ty.text_ofKind ht]
    have hscan := (Scans.name (o := o) hname (by simp) Scans.nil).blank
    rw [htext]
    refine (Scans.keyword (TokenKind.mem_keywords_of_isType ht) (by simp) hscan).mono ?_
    rintro _ ⟨p, _, rfl, q, _, rfl, rfl⟩
    exact ⟨_, .byValue ht rfl, rfl⟩
  | @byRef t mark x ht _ hallows hx =>
    have hname := (hts x (by simp)).identifier hx
    have htext : (Param.mk x.pos (.ofKind t.kind) x.value true none).format.toList =
        t.kind.text.toList ++ ' ' :: (TokenKind.ampersand.text.toList ++ (x.value.toList ++ [])) := by
      simp [Param.format, Ty.text_ofKind ht, TokenKind.text]
    have hfollow : ∀ rest, Breaks rest → ∀ c ∈ ((x.value.toList ++ []) ++ rest).head?,
        c ∉ TokenKind.ampersand.glue := by
      intro rest _ c hc
      obtain ⟨d, ds, hds, hd⟩ := hname.start
      have hmark : isWordStart '&' = false := rfl
      simp only [hds, List.append_nil, List.cons_append, List.head?_cons] at hc
      cases hc
      rintro hglue
      rw [List.mem_singleton.1 hglue, hmark] at hd
      contradiction
    have hscan := (Scans.symbol (o := o) (k := .ampersand) (by decide) hfollow
      (Scans.name hname (by simp) Scans.nil)).blank
    rw [htext]
    refine (Scans.keyword (TokenKind.mem_keywords_of_isType ht) (by simp) hscan).mono ?_
    rintro _ ⟨p, _, rfl, q, _, rfl, r, _, rfl, rfl⟩
    exact ⟨_, .byRef ht rfl hallows rfl, rfl⟩

theorem Param.SpelledAll.scans_format (o : ScanOptions) {ps : List Param}
    (h : Param.SpelledAll allows ts ps) (hts : ∀ t ∈ ts, t.Legible) :
    Scans o (", ".intercalate (ps.map Param.format)).toList fun us =>
      ∃ ps', Param.SpelledAll allows us ps' ∧ ps'.map Param.bare = ps.map Param.bare := by
  cases h with
  | none => exact Scans.nil.mono fun us hus => ⟨[], hus ▸ .none, rfl⟩
  | some hps =>
    obtain ⟨hne, hmembers⟩ := hps.members hts
    have hlist := Scans.commas (Param.Spelled allows) Param.bare hne fun v hv => by
      obtain ⟨us, hv', hus⟩ := hmembers v hv
      exact hv'.scans_format o hus
    refine hlist.mono ?_
    rintro us ⟨ps', hps', hbare⟩
    exact ⟨ps', .some hps', hbare⟩

theorem Param.SpelledAll.scans_header (o : ScanOptions) (hk : k.isType = true) (hx : IsName x)
    {ps : List Param} (h : Param.SpelledAll allows ts ps) (hts : ∀ t ∈ ts, t.Legible)
    {P : List Token → Prop} (hcs : Scans o cs P) :
    Scans o (k.text.toList ++ ' ' :: (x.toList ++ '(' ::
        ((", ".intercalate (ps.map Param.format)).toList ++ ')' :: cs))) fun us =>
      ∃ t f lp rp vs ws ps', us = t :: f :: lp :: (vs ++ rp :: ws) ∧ t.kind = k ∧
        f.kind = .identifier ∧ f.value = x ∧ lp.kind = .leftParen ∧
        Param.SpelledAll allows vs ps' ∧ ps'.map Param.bare = ps.map Param.bare ∧
        rp.kind = .rightParen ∧ P ws := by
  have hparams := (h.scans_format o hts).append (by simp) hcs.rightParen
  have hname := Scans.name hx (by simp) hparams.leftParen
  refine (Scans.keyword (TokenKind.mem_keywords_of_isType hk) (by simp) hname.blank).mono ?_
  rintro _ ⟨p, _, rfl, q, _, rfl, r, _, rfl, vs, _, rfl, ⟨ps', hps', hbare⟩, s, ws, rfl, hws⟩
  exact ⟨_, _, _, _, vs, ws, ps', rfl, rfl, rfl, rfl, rfl, hps', hbare, rfl, hws⟩

/-- The text after the header of a function. -/
def Function.bodyText (f : Function) : List Char :=
  match f.body with
  | none => [';']
  | some b => ' ' :: (Stmt.block b.pos b.stmts).format.toList

theorem Function.toList_format (f : Function) : f.format.toList =
    f.result.text.toList ++ ' ' :: (f.name.toList ++ '(' ::
      ((", ".intercalate (f.params.map Param.format)).toList ++ ')' :: f.bodyText)) := by
  cases hbody : f.body <;> simp [Function.format, Function.bodyText, hbody]

theorem Function.Spelled.scans_format (o : ScanOptions) {f : Function}
    (h : Function.Spelled allows ts f) (hts : ∀ t ∈ ts, t.Legible) :
    Scans o f.format.toList fun us => ∃ f', Function.Spelled allows us f' ∧ f'.bare = f.bare := by
  cases h with
  | @prototype t x lp rp semi ts ps ht hx _ hps _ _ =>
    simp only [List.forall_mem_cons, List.forall_mem_append] at hts
    have hscan := hps.scans_header o ht (hts.2.1.identifier hx) hts.2.2.2.1 Scans.nil.semicolon
    rw [Function.toList_format, Ty.text_ofKind ht]
    refine hscan.mono ?_
    rintro _ ⟨t', f, lp', rp', vs, _, ps', rfl, ht', hf, hvalue, hlp, hps', hbare, hrp, _, _, rfl,
      rfl⟩
    refine ⟨_, .prototype (ht' ▸ ht) hf hlp hps' hrp rfl, ?_⟩
    simp [Function.bare, hvalue, hbare, ht']
  | @definition t x lp rp ts us ps p stmts ht hx _ hps _ hbody =>
    simp only [List.forall_mem_cons, List.forall_mem_append] at hts
    have hblock : Scans o _ _ := hbody.prints o hts.2.2.2.2.2
    have hscan := hps.scans_header o ht (hts.2.1.identifier hx) hts.2.2.2.1 hblock.blank
    rw [Function.toList_format, Ty.text_ofKind ht]
    refine hscan.mono ?_
    rintro _ ⟨t', f, lp', rp', vs, ws, ps', rfl, ht', hf, hvalue, hlp, hps', hbare, hrp, s', hs',
      hbare'⟩
    cases s' with
    | block p' stmts' =>
      refine ⟨_, .definition (ht' ▸ ht) hf hlp hps' hrp hs', ?_⟩
      simp only [Stmt.bare, Stmt.block.injEq, true_and] at hbare'
      simp [Function.bare, Body.bare, hvalue, hbare, hbare', ht']
    | _ => simp [Stmt.bare] at hbare'

/-! ## Programs -/

/-- The text of a program: its functions, one to a line. -/
def Program.format (p : Program) : String := "\n".intercalate (p.map Function.format)

theorem Program.Spelled.scans_format (o : ScanOptions) {p : Program}
    (h : Program.Spelled allows ts p) (hts : ∀ t ∈ ts, t.Legible) :
    Scans o p.format.toList fun us => ∃ p', Program.Spelled allows us p' ∧ p'.bare = p.bare := by
  induction h with
  | nil => exact Scans.nil.mono fun us hus => ⟨[], hus ▸ .nil, rfl⟩
  | @cons ts us f fs hf hfs ih =>
    simp only [List.forall_mem_append] at hts
    have hfirst := hf.scans_format o hts.1
    have hmore := ih hts.2
    cases fs with
    | nil =>
      simp only [Program.format, List.map_cons, List.map_nil, String.intercalate_singleton]
      refine hfirst.mono ?_
      rintro us ⟨f', hf', hbare⟩
      exact ⟨[f'], by simpa using Program.Spelled.cons hf' .nil, by simp [Program.bare, hbare]⟩
    | cons g gs =>
      simp only [Program.format, List.map_cons] at hmore ⊢
      rw [toList_intercalate_cons]
      refine (hfirst.append (by simp) (Scans.space (c := '\n') rfl hmore)).mono ?_
      rintro _ ⟨us, vs, rfl, ⟨f', hf', hbare⟩, p', hp', hbares⟩
      refine ⟨f' :: p', .cons hf' hp', ?_⟩
      simp only [Program.bare] at hbares ⊢
      rw [List.map_cons, hbares, hbare]
      rfl

theorem Cursor.tokens_nil (o : ScanOptions) (p : Place) :
    Cursor.tokens o ⟨[], p⟩ = [⟨.endOfFile, "", p.pos o.file 0⟩] := by
  rw [Cursor.tokens]
  rfl

/-- The text of a program that was read is scanned and read again, into the same program up to
    positions. -/
theorem Program.parse_format {text : List Char} {p : Program}
    (h : Program.parse allows (scan o text) = .ok p) :
    ∃ ts eof q, scan o p.format.toList = ts ++ [eof] ∧ eof.kind = .endOfFile ∧
      (∀ t ∈ ts, t.kind.isLast = false) ∧
      Program.parse allows (scan o p.format.toList) = .ok q ∧ q.bare = p.bare := by
  obtain ⟨ts, last, htokens, hlast, hts⟩ := Cursor.endsOnce_tokens o ⟨text, {}⟩
  rw [scan, htokens] at h
  obtain ⟨-, hp⟩ := Program.spelled_of_parse hlast hts h
  have hlegible : ∀ t ∈ ts, t.Legible := fun t ht =>
    Cursor.legible_tokens o ⟨text, {}⟩ t (htokens ▸ List.mem_append_left _ ht)
  obtain ⟨us, ⟨q, hq, hbare⟩, hscan⟩ := hp.scans_format o hlegible {}
  have htext := hscan [] breaks_nil
  rw [List.append_nil, Cursor.tokens_nil, ← scan] at htext
  obtain ⟨vs, _, hvs, -, hall⟩ := Cursor.endsOnce_tokens o ⟨p.format.toList, {}⟩
  rw [← scan, htext] at hvs
  obtain ⟨rfl, -⟩ := List.append_inj' hvs rfl
  refine ⟨us, _, q, htext, rfl, hall, ?_, hbare⟩
  rw [htext]
  exact Program.parse_of_spelled rfl hall hq

/-- Printing a program and reading it back is the identity, up to positions. The text that is printed
    has no illegal token, and compiling it goes as far as compiling the text that the program was
    read from, with the same assembly and the same reports. -/
theorem Compilation.run_format {o : ScanOptions} {allows : Feature → Bool} {text : List Char}
    {p : Program} (h : Program.parse allows (scan o text) = .ok p) (s : Settings) :
    (∀ t ∈ scan o p.format.toList, t.kind ≠ .illegal) ∧
    (∃ q, Program.parse allows (scan o p.format.toList) = .ok q ∧ q.bare = p.bare) ∧
    (Compilation.run s allows (scan o p.format.toList)).bare =
      (Compilation.run s allows (scan o text)).bare ∧
    (Compilation.run s allows (scan o p.format.toList)).assembly? =
      (Compilation.run s allows (scan o text)).assembly? ∧
    (Compilation.run s allows (scan o p.format.toList)).diagnostics.map Diagnostic.bare =
      (Compilation.run s allows (scan o text)).diagnostics.map Diagnostic.bare := by
  obtain ⟨ts, eof, q, hscan, heof, hts, hq, hbare⟩ := Program.parse_format h
  have hrun := Compilation.run_bare (s := s) h hq hbare
  refine ⟨?_, ⟨q, hq, hbare⟩, hrun, ?_, ?_⟩
  · intro t ht hk
    rw [hscan] at ht
    rcases List.mem_append.1 ht with ht | ht
    · have hlast := hts t ht
      rw [hk] at hlast
      cases hlast
    · rw [List.mem_singleton.1 ht, heof] at hk
      cases hk
  · rw [← Compilation.assembly?_bare, hrun, Compilation.assembly?_bare]
  · rw [← Compilation.diagnostics_bare, hrun, Compilation.diagnostics_bare]

/-- An `else` after two `if`s, a `for` header without parts, signs in a row, leading zeros, an
    assignment in an expression, a comment and a name that is not ASCII. -/
def tangledSource : String :=
  "int f(int &\u00f6, boolean b); // f\nint g(int n) \x7b if (n > 007) " ++
  "if (!!(n - --1 != 2)) ; else for (;;) break; return f(n = n / 3, n == 1 || true); \x7d"

theorem Compilation.run_format_tangledSource : ∃ p q assembly,
    Program.parse (fun _ => true) (scan {} tangledSource.toList) = .ok p ∧
    p.format ≠ tangledSource ∧ p.length = 2 ∧
    Program.parse (fun _ => true) (scan {} p.format.toList) = .ok q ∧ q.bare = p.bare ∧
    (Compilation.run {} (fun _ => true) (scan {} tangledSource.toList)).assembly? = some assembly ∧
    (Compilation.run {} (fun _ => true) (scan {} p.format.toList)).assembly? = some assembly := by
  obtain ⟨p, hp, heval⟩ := exists_of_any
    (show (Program.parse (fun _ => true) (scan {} tangledSource.toList)).toOption.any (fun p =>
      p.format != tangledSource && p.length == 2 && (p.check {}).fault.isNone &&
      (p.check {}).accepted) = true by decide +kernel)
  simp only [Bool.and_eq_true, bne_iff_ne, beq_iff_eq, Option.isNone_iff_eq_none] at heval
  obtain ⟨⟨⟨hformat, hlength⟩, hfault⟩, haccepted⟩ := heval
  have hrun : (Compilation.run {} (fun _ => true) (scan {} tangledSource.toList)).assembly? =
      some ((p.check {}).program.assembly {}) := by
    simp only [Compilation.run, hp, hfault, haccepted, if_true, Compilation.assembly?]
  obtain ⟨-, ⟨q, hq, hbare⟩, -, hsame, -⟩ := Compilation.run_format hp {}
  exact ⟨p, q, _, hp, hformat, hlength, hq, hbare, hrun, hsame.trans hrun⟩

end MiniCompiler
