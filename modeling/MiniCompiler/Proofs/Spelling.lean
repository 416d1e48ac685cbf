import MiniCompiler.Proofs.Grammar

/-!
# How trees are spelled

Which tokens spell which tree. A grammar says only which lists of tokens are programs; the relations
here say which tree each has. Operators of one rule group to the left, the operands of a rule are
spelled by the next tighter rule, an assignment has a variable on its left and groups to the right,
and an `else` belongs to the nearest `if` before it that has none.

The features that are switched on are a parameter here as they are in the grammar.
-/

namespace MiniCompiler

/-! ## Expressions -/

/-- The rule that spells the operands of a rule of operators. -/
def Rule.operand? : Rule → Option Rule
  | .or => some .and
  | .and => some .equality
  | .equality => some .relation
  | .relation => some .sum
  | .sum => some .product
  | .product => some .unary
  | _ => none

/-- An argument of a call after the first: its comma, its tokens and its tree. -/
structure NextArg where
  comma : Token
  tokens : List Token
  arg : Expr

/-- Tokens that spell an expression by a rule of the grammar. -/
inductive Expr.Spelled : Rule → List Token → Expr → Prop where
  | assign {x sign : Token} {ts : List Token} {e : Expr} :
    x.kind = .identifier → sign.kind = .assign → Spelled .expr ts e →
    Spelled .expr (x :: sign :: ts) (.assign sign.pos ⟨x.pos, x.value, none⟩ e)
  | operators {ts : List Token} {e : Expr} : Spelled .or ts e → Spelled .expr ts e
  | operand {r r' : Rule} {ts : List Token} {e : Expr} :
    r.operand? = some r' → Spelled r' ts e → Spelled r ts e
  | operation {r r' : Rule} {op : Token} {us vs : List Token} {left right : Expr} :
    r.operand? = some r' → op.kind ∈ r.operators → Spelled r us left → Spelled r' vs right →
    Spelled r (us ++ op :: vs) (.binary op.pos (.ofKind op.kind) left right)
  | sign {t : Token} {ts : List Token} {e : Expr} :
    t.kind = .minus ∨ t.kind = .not → Spelled .unary ts e →
    Spelled .unary (t :: ts) (.unary t.pos (.ofKind t.kind) e)
  | atom {ts : List Token} {e : Expr} : Spelled .primary ts e → Spelled .unary ts e
  | number {t : Token} {n : Int} :
    t.kind = .number → int64? t.value.toList = some n → Spelled .primary [t] (.int t.pos n)
  | true {t : Token} : t.kind = .kwTrue → Spelled .primary [t] (.bool t.pos Bool.true)
  | false {t : Token} : t.kind = .kwFalse → Spelled .primary [t] (.bool t.pos Bool.false)
  | var {t : Token} : t.kind = .identifier → Spelled .primary [t] (.var ⟨t.pos, t.value, none⟩)
  | callEmpty {f lp rp : Token} :
    f.kind = .identifier → lp.kind = .leftParen → rp.kind = .rightParen →
    Spelled .primary [f, lp, rp] (.call f.pos f.value [] none)
  | call {f lp rp : Token} {ts : List Token} {e : Expr} {more : List NextArg} :
    f.kind = .identifier → lp.kind = .leftParen → rp.kind = .rightParen → Spelled .expr ts e →
    (∀ m ∈ more, m.comma.kind = .comma) → (∀ m ∈ more, Spelled .expr m.tokens m.arg) →
    Spelled .primary (f :: lp :: (ts ++ more.flatMap (fun m => m.comma :: m.tokens) ++ [rp]))
      (.call f.pos f.value ((e :: more.map NextArg.arg).map (Bool.false, ·)) none)
  | parens {lp rp : Token} {ts : List Token} {e : Expr} :
    lp.kind = .leftParen → rp.kind = .rightParen → Spelled .expr ts e →
    Spelled .primary (lp :: (ts ++ [rp])) e

/-- An expression that may be left out. -/
inductive Expr.SpelledOrAbsent : List Token → Expr → Prop where
  | absent : SpelledOrAbsent [] .absent
  | present {ts : List Token} {e : Expr} : Expr.Spelled .expr ts e → SpelledOrAbsent ts e

/-! ## Declarations -/

/-- One or more things with commas between them. -/
inductive SpelledList {α : Type} (spelled : List Token → α → Prop) :
    List Token → List α → Prop where
  | last {ts : List Token} {a : α} : spelled ts a → SpelledList spelled ts [a]
  | next {ts us : List Token} {comma : Token} {a : α} {as : List α} :
    spelled ts a → comma.kind = .comma → SpelledList spelled us as →
    SpelledList spelled (ts ++ comma :: us) (a :: as)

/-- A variable of a declaration. -/
inductive Local.Spelled : List Token → Local → Prop where
  | bare {x : Token} : x.kind = .identifier → Spelled [x] ⟨x.pos, x.value, .absent, none⟩
  | init {x sign : Token} {ts : List Token} {e : Expr} :
    x.kind = .identifier → sign.kind = .assign → Expr.Spelled .expr ts e →
    Spelled (x :: sign :: ts) ⟨x.pos, x.value, e, none⟩

/-- A declaration of variables, without its semicolon. -/
inductive Stmt.Declares : List Token → Stmt → Prop where
  | locals {t : Token} {ts : List Token} {vars : List Local} :
    t.kind.isType → SpelledList Local.Spelled ts vars →
    Declares (t :: ts) (.locals t.pos (.ofKind t.kind) vars)

/-- The first part of a `for` header. -/
inductive Stmt.SpelledInit : List Token → Stmt → Prop where
  | absent : SpelledInit [] .absent
  | declares {ts : List Token} {s : Stmt} : Stmt.Declares ts s → SpelledInit ts s
  | expr {t : Token} {ts : List Token} {e : Expr} :
    Expr.Spelled .expr (t :: ts) e → SpelledInit (t :: ts) (.expr t.pos e)

/-! ## Statements -/

/-- Does a statement end in an `if` without an `else`? An `else` after it would belong there. -/
def Stmt.endsOpen : Stmt → Bool
  | .cond _ _ _ .absent => true
  | .cond _ _ _ no => no.endsOpen
  | .whileLoop _ _ body => body.endsOpen
  | .forLoop _ _ _ _ body => body.endsOpen
  | _ => false

/-- Tokens that spell a statement. `allows` says which features may be used. -/
inductive Stmt.Spelled (allows : Feature → Bool) : List Token → Stmt → Prop where
  | block {lb rb : Token} {items : List (List Token × Stmt)} :
    lb.kind = .leftBrace → rb.kind = .rightBrace → (∀ i ∈ items, Spelled allows i.1 i.2) →
    Spelled allows (lb :: (items.flatMap Prod.fst ++ [rb])) (.block lb.pos (items.map Prod.snd))
  | empty {t : Token} : t.kind = .semicolon → Spelled allows [t] (.empty t.pos)
  | locals {semi : Token} {ts : List Token} {s : Stmt} :
    Stmt.Declares ts s → semi.kind = .semicolon → Spelled allows (ts ++ [semi]) s
  | cond {t lp rp : Token} {ts us : List Token} {test : Expr} {yes : Stmt} :
    t.kind = .kwIf → lp.kind = .leftParen → Expr.Spelled .expr ts test → rp.kind = .rightParen →
    Spelled allows us yes →
    Spelled allows (t :: lp :: (ts ++ rp :: us)) (.cond t.pos test yes .absent)
  | condElse {t lp rp other : Token} {ts us vs : List Token} {test : Expr} {yes no : Stmt} :
    t.kind = .kwIf → lp.kind = .leftParen → Expr.Spelled .expr ts test → rp.kind = .rightParen →
    Spelled allows us yes → yes.endsOpen = false → other.kind = .kwElse → Spelled allows vs no →
    Spelled allows (t :: lp :: (ts ++ rp :: (us ++ other :: vs))) (.cond t.pos test yes no)
  | whileLoop {t lp rp : Token} {ts us : List Token} {test : Expr} {body : Stmt} :
    t.kind = .kwWhile → lp.kind = .leftParen → Expr.Spelled .expr ts test →
    rp.kind = .rightParen → Spelled allows us body →
    Spelled allows (t :: lp :: (ts ++ rp :: us)) (.whileLoop t.pos test body)
  | forLoop {t lp s₁ s₂ rp : Token} {ts us vs ws : List Token} {init : Stmt} {test step : Expr}
      {body : Stmt} :
    allows .forLoops → t.kind = .kwFor → lp.kind = .leftParen → Stmt.SpelledInit ts init →
    s₁.kind = .semicolon → Expr.SpelledOrAbsent us test → s₂.kind = .semicolon →
    Expr.SpelledOrAbsent vs step → rp.kind = .rightParen → Spelled allows ws body →
    Spelled allows (t :: lp :: (ts ++ s₁ :: (us ++ s₂ :: (vs ++ rp :: ws))))
      (.forLoop t.pos init test step body)
  | breakLoop {t semi : Token} :
    t.kind = .kwBreak → semi.kind = .semicolon → Spelled allows [t, semi] (.breakLoop t.pos)
  | continueLoop {t semi : Token} :
    allows .continueStatement → t.kind = .kwContinue → semi.kind = .semicolon →
    Spelled allows [t, semi] (.continueLoop t.pos)
  | ret {t semi : Token} {ts : List Token} {e : Expr} :
    t.kind = .kwReturn → Expr.SpelledOrAbsent ts e → semi.kind = .semicolon →
    Spelled allows (t :: (ts ++ [semi])) (.ret t.pos e)
  | expr {t semi : Token} {ts : List Token} {e : Expr} :
    Expr.Spelled .expr (t :: ts) e → semi.kind = .semicolon →
    Spelled allows (t :: ts ++ [semi]) (.expr t.pos e)

/-! ## Programs -/

/-- A parameter. -/
inductive Param.Spelled (allows : Feature → Bool) : List Token → Param → Prop where
  | byValue {t x : Token} : t.kind.isType → x.kind = .identifier →
    Spelled allows [t, x] ⟨x.pos, .ofKind t.kind, x.value, false, none⟩
  | byRef {t mark x : Token} : t.kind.isType → mark.kind = .ampersand → allows .byReference →
    x.kind = .identifier →
    Spelled allows [t, mark, x] ⟨x.pos, .ofKind t.kind, x.value, true, none⟩

inductive Param.SpelledAll (allows : Feature → Bool) : List Token → List Param → Prop where
  | none : SpelledAll allows [] []
  | some {ts : List Token} {ps : List Param} :
    SpelledList (Param.Spelled allows) ts ps → SpelledAll allows ts ps

/-- A function: a prototype, or a definition with its body. -/
inductive Function.Spelled (allows : Feature → Bool) : List Token → Function → Prop where
  | prototype {t x lp rp semi : Token} {ts : List Token} {ps : List Param} :
    t.kind.isType → x.kind = .identifier → lp.kind = .leftParen →
    Param.SpelledAll allows ts ps → rp.kind = .rightParen → semi.kind = .semicolon →
    Spelled allows (t :: x :: lp :: (ts ++ [rp, semi]))
      { pos := x.pos, name := x.value, result := .ofKind t.kind, params := ps, body := none,
        isPrototype := true }
  | definition {t x lp rp : Token} {ts us : List Token} {ps : List Param} {p : Pos}
      {stmts : List Stmt} :
    t.kind.isType → x.kind = .identifier → lp.kind = .leftParen →
    Param.SpelledAll allows ts ps → rp.kind = .rightParen →
    Stmt.Spelled allows us (.block p stmts) →
    Spelled allows (t :: x :: lp :: (ts ++ rp :: us))
      { pos := x.pos, name := x.value, result := .ofKind t.kind, params := ps,
        body := some ⟨p, stmts⟩, isPrototype := false }

/-- A program: its functions one after the other. -/
inductive Program.Spelled (allows : Feature → Bool) : List Token → Program → Prop where
  | nil : Spelled allows [] []
  | cons {ts us : List Token} {f : Function} {fs : Program} :
    Function.Spelled allows ts f → Spelled allows us fs → Spelled allows (ts ++ us) (f :: fs)

/-- Each function of a program is spelled by a part of the tokens. -/
theorem Program.Spelled.exists_function {allows : Feature → Bool} {ts : List Token} {p : Program}
    (h : Program.Spelled allows ts p) : ∀ f ∈ p, ∃ us, us.Sublist ts ∧ Function.Spelled allows us f := by
  induction h with
  | nil => simp
  | cons hf _ ih =>
    intro f hmem
    obtain rfl | hmem := List.mem_cons.1 hmem
    · exact ⟨_, List.sublist_append_left .., hf⟩
    · obtain ⟨us, hus, hf⟩ := ih f hmem
      exact ⟨us, hus.trans (List.sublist_append_right ..), hf⟩

end MiniCompiler
