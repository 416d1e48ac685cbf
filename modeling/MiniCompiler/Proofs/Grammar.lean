import MiniCompiler.Settings
import MiniCompiler.Tree.Parse

/-!
# The grammar of programs

The rules of the language in extended Backus-Naur form, and the lists of token kinds that they
derive. A feature that is switched off takes its alternative away from the grammar.

`Derives` is the least relation that the rules are closed under: `Derives.matches` says that every
reading of the rules which they are closed under holds of what they derive.
-/

namespace MiniCompiler

/-! ## Right sides of rules -/

/-- The rules of the language. -/
inductive Rule where
  | program
  | function
  | param
  | type
  | block
  | stmt
  | locals
  /-- A declaration of variables without its semicolon. -/
  | declaration
  | forInit
  | expr
  | or
  | and
  | equality
  | relation
  | sum
  | product
  | unary
  | primary
  deriving DecidableEq, Repr

/-- The right side of a rule. -/
inductive Ebnf where
  /-- Nothing can stand here, not even no token. -/
  | impossible
  | empty
  | token (k : TokenKind)
  | rule (r : Rule)
  | seq (a b : Ebnf)
  | alt (a b : Ebnf)
  | optional (a : Ebnf)
  | repeated (a : Ebnf)
  deriving DecidableEq, Repr

namespace Ebnf

/-- One after the other. -/
def all : List Ebnf → Ebnf
  | [] => .empty
  | a :: as => .seq a (all as)

/-- One of several. -/
def oneOf : List Ebnf → Ebnf
  | [] => .impossible
  | a :: as => .alt a (oneOf as)

/-- What can stand only if something is switched on. -/
def when (on : Bool) (a : Ebnf) : Ebnf := if on then a else .impossible

/-- One or more, with commas between them. -/
def commas (a : Ebnf) : Ebnf := .seq a (.repeated (.all [.token .comma, a]))

/-- Operands of one rule with operators between them. -/
def chain (operand : Rule) (operators : List TokenKind) : Ebnf :=
  .seq (.rule operand) (.repeated (.all [.oneOf (operators.map .token), .rule operand]))

end Ebnf

/-! ## The rules -/

/-- The operators that stand between the operands of a rule. -/
def Rule.operators : Rule → List TokenKind
  | .or => [.orOr]
  | .and => [.andAnd]
  | .equality => [.equal, .notEqual]
  | .relation => [.less, .lessEqual, .greater, .greaterEqual]
  | .sum => [.plus, .minus]
  | .product => [.star, .slash, .percent]
  | _ => []

/-- The right side of each rule. -/
def grammar (allows : Feature → Bool) : Rule → Ebnf
  | .program => .repeated (.rule .function)
  | .function => .all [.rule .type, .token .identifier, .token .leftParen,
      .optional (.commas (.rule .param)), .token .rightParen,
      .oneOf [.rule .block, .token .semicolon]]
  | .param => .all [.rule .type, .optional (.when (allows .byReference) (.token .ampersand)),
      .token .identifier]
  | .type => .oneOf [.token .kwInt, .token .kwBoolean, .token .kwVoid]
  | .block => .all [.token .leftBrace, .repeated (.rule .stmt), .token .rightBrace]
  | .stmt => .oneOf [
      .rule .block,
      .token .semicolon,
      .rule .locals,
      .all [.token .kwIf, .token .leftParen, .rule .expr, .token .rightParen, .rule .stmt,
        .optional (.all [.token .kwElse, .rule .stmt])],
      .all [.token .kwWhile, .token .leftParen, .rule .expr, .token .rightParen, .rule .stmt],
      .when (allows .forLoops) (.all [.token .kwFor, .token .leftParen, .optional (.rule .forInit),
        .token .semicolon, .optional (.rule .expr), .token .semicolon, .optional (.rule .expr),
        .token .rightParen, .rule .stmt]),
      .all [.token .kwBreak, .token .semicolon],
      .when (allows .continueStatement) (.all [.token .kwContinue, .token .semicolon]),
      .all [.token .kwReturn, .optional (.rule .expr), .token .semicolon],
      .all [.rule .expr, .token .semicolon]]
  | .locals => .all [.rule .declaration, .token .semicolon]
  | .declaration => .all [.rule .type,
      .commas (.all [.token .identifier, .optional (.all [.token .assign, .rule .expr])])]
  | .forInit => .oneOf [.rule .declaration, .rule .expr]
  | .expr => .oneOf [.all [.token .identifier, .token .assign, .rule .expr], .rule .or]
  | .or => .chain .and Rule.or.operators
  | .and => .chain .equality Rule.and.operators
  | .equality => .chain .relation Rule.equality.operators
  | .relation => .chain .sum Rule.relation.operators
  | .sum => .chain .product Rule.sum.operators
  | .product => .chain .unary Rule.product.operators
  | .unary => .oneOf [.all [.oneOf [.token .minus, .token .not], .rule .unary], .rule .primary]
  | .primary => .oneOf [.token .number, .token .kwTrue, .token .kwFalse, .token .identifier,
      .all [.token .identifier, .token .leftParen, .optional (.commas (.rule .expr)),
        .token .rightParen],
      .all [.token .leftParen, .rule .expr, .token .rightParen]]

/-! ## Derivations -/

/-- The lists of token kinds that a right side derives by the rules `g`. -/
inductive Derives (g : Rule → Ebnf) : Ebnf → List TokenKind → Prop where
  | empty : Derives g .empty []
  | token (k : TokenKind) : Derives g (.token k) [k]
  | rule {r : Rule} {w : List TokenKind} : Derives g (g r) w → Derives g (.rule r) w
  | seq {a b : Ebnf} {u v : List TokenKind} :
    Derives g a u → Derives g b v → Derives g (.seq a b) (u ++ v)
  | left {a b : Ebnf} {w : List TokenKind} : Derives g a w → Derives g (.alt a b) w
  | right {a b : Ebnf} {w : List TokenKind} : Derives g b w → Derives g (.alt a b) w
  | absent {a : Ebnf} : Derives g (.optional a) []
  | present {a : Ebnf} {w : List TokenKind} : Derives g a w → Derives g (.optional a) w
  | done {a : Ebnf} : Derives g (.repeated a) []
  | more {a : Ebnf} {u v : List TokenKind} :
    Derives g a u → Derives g (.repeated a) v → Derives g (.repeated a) (u ++ v)

namespace Derives

variable {g : Rule → Ebnf} {a : Ebnf} {as : List Ebnf} {u v w : List TokenKind}

theorem token_all {k : TokenKind} (h : Derives g (.all as) w) :
    Derives g (.all (.token k :: as)) (k :: w) := .seq (.token k) h

theorem append_all (ha : Derives g a u) (h : Derives g (.all as) v) :
    Derives g (.all (a :: as)) (u ++ v) := .seq ha h

theorem last_all (h : Derives g a w) : Derives g (.all [a]) w := by
  simpa [Ebnf.all] using Derives.seq h Derives.empty

theorem oneOf_of_mem (hmem : a ∈ as) (h : Derives g a w) : Derives g (.oneOf as) w := by
  induction as with
  | nil => cases hmem
  | cons b as ih =>
    cases hmem with
    | head => exact .left h
    | tail _ htail => exact .right (ih htail)

theorem token_oneOf {ks : List TokenKind} {k : TokenKind} (hk : k ∈ ks) :
    Derives g (.oneOf (ks.map .token)) [k] :=
  oneOf_of_mem (List.mem_map_of_mem hk) (.token k)

/-- A list of parts that are each derived is derived by their repetition. -/
theorem repeated_flatten {parts : List (List TokenKind)} (h : ∀ p ∈ parts, Derives g a p) :
    Derives g (.repeated a) parts.flatten := by
  induction parts with
  | nil => exact .done
  | cons p parts ih =>
    rw [List.flatten_cons]
    exact .more (h p (by simp)) (ih fun q hq => h q (by simp [hq]))

/-- A repetition can be extended at its end. -/
theorem repeated_append (hu : Derives g (.repeated a) u) (hv : Derives g a v) :
    Derives g (.repeated a) (u ++ v) := by
  generalize hr : Ebnf.repeated a = r at hu
  induction hu with
  | done =>
    cases hr
    simpa using Derives.more hv Derives.done
  | more hfirst _ _ ih =>
    cases hr
    rw [List.append_assoc]
    exact .more hfirst (ih rfl)
  | _ => cases hr

end Derives

/-! ## Readings of the rules -/

/-- Is the token no number, or one that fits into a signed 64-bit word? -/
def Token.Readable (t : Token) : Prop :=
  t.kind = .number → (int64? t.value.toList).isSome

/-- Do tokens match a right side, if `spells` says which tokens spell a rule? -/
def Ebnf.Matches (spells : Rule → List Token → Prop) : Ebnf → List Token → Prop
  | .impossible, _ => False
  | .empty, ts => ts = []
  | .token k, ts => ∃ t : Token, ts = [t] ∧ t.kind = k ∧ t.Readable
  | .rule r, ts => spells r ts
  | .seq a b, ts => ∃ us vs, ts = us ++ vs ∧ a.Matches spells us ∧ b.Matches spells vs
  | .alt a b, ts => a.Matches spells ts ∨ b.Matches spells ts
  | .optional a, ts => ts = [] ∨ a.Matches spells ts
  | .repeated a, ts => ∃ parts : List (List Token), ts = parts.flatten ∧
      ∀ p ∈ parts, a.Matches spells p

/-- What the rules derive is read as any relation that they are closed under reads it. -/
theorem Derives.matches {g : Rule → Ebnf} {spells : Rule → List Token → Prop}
    (closed : ∀ r ts, (g r).Matches spells ts → spells r ts) {a : Ebnf} {w : List TokenKind}
    (h : Derives g a w) : ∀ ts : List Token, ts.map Token.kind = w →
      (∀ t ∈ ts, t.Readable) → a.Matches spells ts := by
  induction h with
  | empty => exact fun ts hw _ => List.map_eq_nil_iff.1 hw
  | token k =>
    intro ts hw hread
    obtain ⟨t, rfl, ht⟩ := List.map_eq_singleton_iff.1 hw
    exact ⟨t, rfl, ht, hread t (by simp)⟩
  | rule _ ih => exact fun ts hw hread => closed _ ts (ih ts hw hread)
  | seq _ _ iha ihb =>
    intro ts hw hread
    obtain ⟨us, vs, rfl, hu, hv⟩ := List.map_eq_append_iff.1 hw
    exact ⟨us, vs, rfl, iha us hu fun t ht => hread t (by simp [ht]),
      ihb vs hv fun t ht => hread t (by simp [ht])⟩
  | left _ ih => exact fun ts hw hread => .inl (ih ts hw hread)
  | right _ ih => exact fun ts hw hread => .inr (ih ts hw hread)
  | absent => exact fun ts hw _ => .inl (List.map_eq_nil_iff.1 hw)
  | present _ ih => exact fun ts hw hread => .inr (ih ts hw hread)
  | done => exact fun ts hw _ => ⟨[], by simpa using hw, by simp⟩
  | more _ _ iha ihb =>
    intro ts hw hread
    obtain ⟨us, vs, rfl, hu, hv⟩ := List.map_eq_append_iff.1 hw
    obtain ⟨parts, hparts, hall⟩ := ihb vs hv fun t ht => hread t (by simp [ht])
    refine ⟨us :: parts, by simp [hparts], ?_⟩
    intro p hp
    cases hp with
    | head => exact iha us hu fun t ht => hread t (by simp [ht])
    | tail _ htail => exact hall p htail

end MiniCompiler
