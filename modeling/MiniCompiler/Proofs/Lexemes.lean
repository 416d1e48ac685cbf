import Mathlib.Data.List.TakeWhile
import MiniCompiler.Compilation

/-!
# Words and numbers of a scanned text

A scan spells its identifiers as names and its numbers in digits. Tokens that were not scanned need
not: there, an identifier may be called anything.
-/

namespace MiniCompiler

open Text

/-! ## Numbers -/

theorem decimalFrom_of_isDigit {cs : List Char} (h : ∀ c ∈ cs, c.isDigit = true) (n : Nat) :
    decimalFrom n cs = some (Nat.ofDigitChars 10 cs n) := by
  induction cs generalizing n with
  | nil => rfl
  | cons c cs ih =>
    have hc : '0' ≤ c ∧ c ≤ '9' := by
      simpa [Char.isDigit, Char.le_def] using h c List.mem_cons_self
    rw [decimalFrom, if_pos hc, ih fun d hd => h d (List.mem_cons_of_mem _ hd),
      Nat.ofDigitChars_cons]

theorem repr_ne_nil (n : Nat) : n.repr.toList ≠ [] := by
  rw [Nat.toList_repr]
  exact List.ne_nil_of_length_pos Nat.length_toDigits_pos

theorem isDigit_of_mem_repr {n : Nat} {c : Char} (h : c ∈ n.repr.toList) : c.isDigit = true := by
  rw [Nat.toList_repr] at h
  exact Nat.isDigit_of_mem_toDigits (by omega) (by omega) h

/-- A number is read back from its decimal digits. -/
theorem decimal?_repr (n : Nat) : decimal? n.repr.toList = some n := by
  have hread := decimalFrom_of_isDigit (fun _ => isDigit_of_mem_repr (n := n)) 0
  have hne := repr_ne_nil n
  rw [Nat.toList_repr] at hne hread ⊢
  rw [Nat.ofDigitChars_toDigits (by omega) (by omega)] at hread
  generalize Nat.toDigits 10 n = cs at hne hread
  cases cs with
  | nil => exact absurd rfl hne
  | cons c cs => exact hread

/-! ## Scanned tokens -/

/-- A word that is no keyword. -/
structure IsName (name : String) : Prop where
  start : ∃ c cs, name.toList = c :: cs ∧ isWordStart c = true
  chars : ∀ c ∈ name.toList, isWordChar c = true
  kind : TokenKind.ofWord name = .identifier

/-- Identifiers are names, and numbers are made of digits. -/
structure Token.Legible (t : Token) : Prop where
  identifier : t.kind = .identifier → IsName t.value
  number : t.kind = .number → ∀ c ∈ t.value.toList, isDigit c = true

theorem TokenKind.ofWord_mem (word : String) : ofWord word ∈ .identifier :: keywords := by
  unfold ofWord
  cases hfind : keywords.find? (·.text == word) with
  | none => exact List.mem_cons_self
  | some k => exact List.mem_cons_of_mem _ (List.mem_of_find?_eq_some hfind)

theorem TokenKind.ofWord_ne_number (word : String) : ofWord word ≠ .number := by
  have hword : ∀ k ∈ .identifier :: keywords, k ≠ .number := by decide
  exact hword _ (ofWord_mem word)

theorem isWordChar_of_isWordStart {c : Char} (h : isWordStart c = true) : isWordChar c = true := by
  simp only [isWordStart, Bool.or_eq_true] at h
  obtain h | h := h <;> simp [isWordChar, h]

theorem Lexeme.legible_word {c : Char} (cs : List Char) (h : isWordStart c = true) (file : Int)
    (p : Place) : ((Lexeme.word ((c :: cs).takeWhile isWordChar)).token file p).Legible := by
  have htake : (c :: cs).takeWhile isWordChar = c :: cs.takeWhile isWordChar :=
    List.takeWhile_cons_of_pos (isWordChar_of_isWordStart h)
  refine ⟨fun hkind => ⟨?_, ?_, hkind⟩, fun hkind => absurd hkind (TokenKind.ofWord_ne_number _)⟩
  · exact ⟨c, cs.takeWhile isWordChar, by simp [token, word, htake], h⟩
  · intro d hd
    simp only [token, word, String.toList_ofList] at hd
    exact List.mem_takeWhile_imp hd

theorem Lexeme.legible_number (cs : List Char) (file : Int) (p : Place) :
    ((Lexeme.number cs).token file p).Legible := by
  unfold number
  split
  · exact ⟨nofun, nofun⟩
  · refine ⟨nofun, ?_⟩
    intro _ d hd
    simp only [token, String.toList_ofList] at hd
    exact List.mem_takeWhile_imp hd

theorem Token.legible_of_kind {t : Token} (hidentifier : t.kind ≠ .identifier)
    (hnumber : t.kind ≠ .number) : t.Legible :=
  ⟨fun h => absurd h hidentifier, fun h => absurd h hnumber⟩

theorem Lexeme.legible_symbol (c : Char) (cs : List Char) (file : Int) (p : Place) :
    ((Lexeme.symbol c cs).token file p).Legible := by
  fun_cases symbol <;> exact Token.legible_of_kind (by rintro ⟨⟩) (by rintro ⟨⟩)

theorem Lexeme.legible_ofChars (cs : List Char) (file : Int) (p : Place) :
    ((Lexeme.ofChars cs).token file p).Legible := by
  cases cs with
  | nil => exact ⟨nofun, nofun⟩
  | cons c cs =>
    rw [ofChars]
    split
    · exact legible_word cs ‹_› file p
    · split
      · exact legible_number _ file p
      · exact legible_symbol c cs file p

theorem Cursor.legible_next (o : ScanOptions) (c : Cursor) : (c.next o).1.Legible := by
  unfold next
  split
  · exact ⟨nofun, nofun⟩
  · exact Lexeme.legible_ofChars _ _ _

theorem Cursor.legible_tokens (o : ScanOptions) (c : Cursor) : ∀ t ∈ c.tokens o, t.Legible := by
  fun_induction Cursor.tokens with
  | case1 c _ => simpa using c.legible_next o
  | case2 c _ ih => simpa using ⟨c.legible_next o, ih⟩

/-- The tokens of source files. -/
theorem Settings.legible_gather {s : Settings} {read : String → Except FileError Content}
    {paths : List String} {i : Nat} {files : List SourceFile} {tokens : List Token}
    (h : s.gather read i paths = .ok (files, tokens)) : ∀ t ∈ tokens, t.Legible := by
  refine Settings.gather_rule (P := fun tokens => ∀ t ∈ tokens, t.Legible) (fun _ t ht => ?_)
    (fun o text => Cursor.legible_tokens o ⟨text, {}⟩) (fun o text more hmore t ht => ?_) h
  · cases List.mem_singleton.1 ht
    exact ⟨nofun, nofun⟩
  · obtain ht | ht := List.mem_append.1 ht
    · exact Cursor.legible_tokens o ⟨text, {}⟩ t (List.dropLast_subset _ ht)
    · exact hmore t ht

end MiniCompiler
