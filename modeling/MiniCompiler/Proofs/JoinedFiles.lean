import MiniCompiler.Command
import MiniCompiler.Proofs.Division
import MiniCompiler.Proofs.ReadPositions

/-!
# Programs in several files

A line break ends whatever the text before it ends with: a character cut short, a lexeme, a line
comment. So the tokens of files one after the other are those of one file in which they stand with line
breaks between them, at other positions.

Main statement: `Job.compile_joined`.
-/

namespace MiniCompiler

variable {text : List Char} {o : ScanOptions} {contents : List Content}

/-! ## Bytes -/

namespace Text

-- A newline is no continuation byte.

theorem not_isPair_newline (a : UInt8) : isPair a 10 = false := by simp [isPair, byteIn]

theorem not_isTriple_newline (a b : UInt8) : isTriple a 10 b = false ∧ isTriple a b 10 = false := by
  simp [isTriple, byteIn]

theorem not_isQuadruple_newline (a b c : UInt8) :
    isQuadruple a 10 b c = false ∧ isQuadruple a b 10 c = false ∧ isQuadruple a b c 10 = false := by
  simp [isQuadruple, byteIn]

theorem decodeUtf8_newline (more : List UInt8) :
    decodeUtf8 (10 :: more) = '\n' :: decodeUtf8 more := by
  rcases more with _ | ⟨b, _ | ⟨c, _ | ⟨d, more⟩⟩⟩
  · rfl
  · rfl
  · rfl
  · rw [decodeUtf8]
    rfl

theorem decodeUtf8_second (a : UInt8) (more : List UInt8) : decodeUtf8 (a :: 10 :: more) =
    (if a < 0x80 then Char.ofNat a.toNat else replacement) :: decodeUtf8 (10 :: more) := by
  rcases more with _ | ⟨b, _ | ⟨c, more⟩⟩ <;> by_cases ha : a < 0x80 <;>
    simp [decodeUtf8, ha, not_isPair_newline, not_isTriple_newline, not_isQuadruple_newline]

theorem decodeUtf8_third (a b : UInt8) (more : List UInt8) : decodeUtf8 (a :: b :: 10 :: more) =
    if a < 0x80 then Char.ofNat a.toNat :: decodeUtf8 (b :: 10 :: more)
    else if isPair a b then
      Char.ofNat (a.toNat % 32 * 64 + tailBits b) :: decodeUtf8 (10 :: more)
    else replacement :: decodeUtf8 (b :: 10 :: more) := by
  cases more <;> simp [decodeUtf8, not_isTriple_newline, not_isQuadruple_newline]

/-- No character goes on over a newline, also where the bytes before it are cut short. A character is
    looked for in up to four bytes, so the newline is in sight only if fewer than four come before it. -/
theorem decodeUtf8_append_newline (more : List UInt8) : ∀ bytes,
    decodeUtf8 (bytes ++ 10 :: more) = decodeUtf8 bytes ++ '\n' :: decodeUtf8 more
  | [] => decodeUtf8_newline more
  | [a] => by
    simp only [List.cons_append, List.nil_append, decodeUtf8_second, decodeUtf8_newline, decodeUtf8]
  | [a, b] => by
    have hb := decodeUtf8_append_newline more [b]
    simp only [List.cons_append, List.nil_append] at hb ⊢
    rw [decodeUtf8_third, decodeUtf8_newline, hb]
    split_ifs <;> simp [decodeUtf8, *]
  | [a, b, c] => by
    have hc := decodeUtf8_append_newline more [c]
    have hbc := decodeUtf8_append_newline more [b, c]
    simp only [List.cons_append, List.nil_append] at hc hbc ⊢
    rw [decodeUtf8, (not_isQuadruple_newline a b c).2.2, if_neg Bool.false_ne_true,
      decodeUtf8_newline, hc, hbc]
    split_ifs <;> simp [decodeUtf8, *]
  | a :: b :: c :: d :: rest => by
    have hbcd := decodeUtf8_append_newline more (b :: c :: d :: rest)
    have hcd := decodeUtf8_append_newline more (c :: d :: rest)
    have hd := decodeUtf8_append_newline more (d :: rest)
    have hrest := decodeUtf8_append_newline more rest
    simp only [List.cons_append] at hbcd hcd hd ⊢
    conv_rhs => rw [decodeUtf8]
    rw [decodeUtf8, hbcd, hcd, hd, hrest]
    split_ifs <;> rfl
termination_by bytes => bytes.length

theorem decodeUtf8_intercalate : ∀ contents : List (List UInt8),
    decodeUtf8 ([10].intercalate contents) = ['\n'].intercalate (contents.map decodeUtf8)
  | [] => by simp [decodeUtf8]
  | [content] => by simp
  | content :: content' :: contents => by
    have hmore := decodeUtf8_intercalate (content' :: contents)
    simp only [List.map_cons] at hmore
    simp [decodeUtf8_append_newline, hmore]

end Text

/-! ## Tokens -/

/-- The end of a file, at no position. -/
def Token.endOfFile : Token := ⟨.endOfFile, "", {}⟩

theorem Division.scan_bare {pieces : List Piece}
    (h : Division o.lineComments text pieces) : (scan o text).map Token.bare =
      (pieces.map Piece.lexeme).map fun l => ⟨l.kind, l.value, {}⟩ := by
  rw [h.scan_eq, List.map_map]
  exact Piece.map_tokens (fun k v => (⟨k, v, {}⟩ : Token)) o.file [] pieces

theorem Division.lexemes_eq {lineComments : Bool} {pieces : List Piece}
    (h : Division lineComments text pieces) (hlegal : ∀ p ∈ pieces, p.lexeme.kind ≠ .illegal) :
    pieces.map Piece.lexeme = (pieces.map Piece.lexeme).dropLast ++ [.endOfFile] := by
  induction h with
  | endOfFile => rfl
  | unclosed => exact absurd rfl (hlegal _ List.mem_cons_self)
  | faulty _ hfaulty => exact absurd hfaulty.kind (hlegal _ List.mem_cons_self)
  | @legal gap rest l pieces _ _ _ _ hrest ih =>
    have hmore := ih (List.forall_mem_of_forall_mem_cons hlegal)
    rw [List.map_cons, hmore, List.dropLast_cons_of_ne_nil (by simp)]
    simp

/-- The number of a file only shows in positions. -/
theorem scan_bare_file {o o' : ScanOptions} (h : o'.lineComments = o.lineComments)
    (text : List Char) : (scan o' text).map Token.bare = (scan o text).map Token.bare := by
  obtain ⟨pieces, hpieces⟩ := exists_division o.lineComments text
  rw [hpieces.scan_bare, Division.scan_bare (h ▸ hpieces)]

/-- Is no token illegal? -/
def LegalTokens (tokens : List Token) : Prop := ∀ t ∈ tokens, t.kind ≠ .illegal

theorem legalTokens_bare {tokens : List Token} :
    LegalTokens (tokens.map Token.bare) ↔ LegalTokens tokens := by
  simp [LegalTokens]

/-- What is scanned before a line break is scanned as if the text ended there. -/
theorem scan_newline (h : LegalTokens (scan o text))
    (more : List Char) : (scan o (text ++ '\n' :: more)).map Token.bare =
      ((scan o text).map Token.bare).dropLast ++ (scan o more).map Token.bare := by
  obtain ⟨pieces, hpieces⟩ := exists_division o.lineComments text
  obtain ⟨pieces', hpieces'⟩ := exists_division o.lineComments more
  rw [hpieces.scan_eq, LegalTokens, Piece.legal_tokens] at h
  obtain ⟨joined, hjoined, hlexemes⟩ := hpieces.newline h hpieces'
  rw [hjoined.scan_bare, hpieces.scan_bare, hpieces'.scan_bare, hlexemes, List.map_append,
    List.map_dropLast]

theorem scan_legal (h : LegalTokens (scan o text)) :
    (scan o text).map Token.bare = ((scan o text).map Token.bare).dropLast ++ [.endOfFile] := by
  obtain ⟨pieces, hpieces⟩ := exists_division o.lineComments text
  rw [hpieces.scan_eq, LegalTokens, Piece.legal_tokens] at h
  rw [hpieces.scan_bare, ← List.map_dropLast]
  conv_lhs => rw [hpieces.lexemes_eq h, List.map_append]
  rfl

/-- Scanning texts with line breaks between them is scanning each of them, up to its end. -/
theorem scan_intercalate : ∀ {texts : List (List Char)},
    (∀ text ∈ texts, LegalTokens (scan o text)) →
    (scan o (['\n'].intercalate texts)).map Token.bare =
      texts.flatMap (fun text => ((scan o text).map Token.bare).dropLast) ++ [.endOfFile]
  | [], _ => by
    have hend : Division o.lineComments [] [⟨[], .endOfFile⟩] := .endOfFile (.gap .nil)
    exact hend.scan_bare
  | [text], h => by simpa using scan_legal (h text List.mem_cons_self)
  | text :: text' :: texts, h => by
    obtain ⟨htext, hmore⟩ := List.forall_mem_cons.1 h
    rw [List.intercalate_cons_cons, List.append_assoc, List.singleton_append, scan_newline htext,
      scan_intercalate hmore, ← List.append_assoc]
    rfl

/-! ## Files -/

/-- The tokens of a file, without positions and without its end. -/
def Settings.fileTokens (s : Settings) (content : Content) : List Token :=
  ((scan (s.scanOptions 0) (Text.decodeUtf8 content)).map Token.bare).dropLast

/-- Are all tokens of a file legal? -/
def Settings.Scannable (s : Settings) (content : Content) : Prop :=
  LegalTokens (scan (s.scanOptions 0) (Text.decodeUtf8 content))

/-- Files of legal tokens are gathered to the last one, and one end of file stands after their tokens. -/
theorem Settings.gather_legal {s : Settings} {read : String → Except FileError Content}
    {paths : List String} (hread : paths.map read = contents.map .ok)
    (hlegal : ∀ content ∈ contents, s.Scannable content) (i : Nat) : ∃ files tokens,
      s.gather read i paths = .ok (files, tokens) ∧
      tokens.map Token.bare = contents.flatMap s.fileTokens ++ [.endOfFile] := by
  induction contents generalizing paths i with
  | nil =>
    cases List.map_eq_nil_iff.1 hread
    exact ⟨_, _, rfl, rfl⟩
  | cons content contents ih =>
    obtain ⟨path, paths, rfl, hpath, hpaths⟩ := List.map_eq_cons_iff.1 hread
    obtain ⟨hcontent, hcontents⟩ := List.forall_mem_cons.1 hlegal
    obtain ⟨files, tokens, hgather, htokens⟩ := ih hpaths hcontents (i + 1)
    -- whether a token is illegal does not depend on the number that the file has here
    have hbare := @scan_bare_file (s.scanOptions 0) (s.scanOptions i) rfl (Text.decodeUtf8 content)
    have hany : ((scan (s.scanOptions i) (Text.decodeUtf8 content)).any
        (·.kind == .illegal)) = false := by
      rw [Settings.Scannable, ← legalTokens_bare, ← hbare, legalTokens_bare] at hcontent
      simpa [LegalTokens] using hcontent
    refine ⟨⟨path, Text.decodeUtf8 content⟩ :: files,
      (scan (s.scanOptions i) (Text.decodeUtf8 content)).dropLast ++ tokens, ?_, ?_⟩
    · simp [Settings.gather, hpath, hany, hgather, bind, Except.bind, pure, Except.pure]
    · rw [List.map_append, List.map_dropLast, hbare, htokens, ← List.append_assoc]
      rfl

/-- The tokens of files with line breaks between them. -/
theorem Settings.scan_joined {s : Settings} (hlegal : ∀ content ∈ contents, s.Scannable content) :
    (scan (s.scanOptions 0) (Text.decodeUtf8 ([10].intercalate contents))).map Token.bare =
      contents.flatMap s.fileTokens ++ [.endOfFile] := by
  rw [Text.decodeUtf8_intercalate, scan_intercalate (List.forall_mem_map.2 hlegal),
    List.flatMap_map]
  rfl

theorem Settings.scannable_joined {s : Settings}
    (hlegal : ∀ content ∈ contents, s.Scannable content) :
    s.Scannable ([10].intercalate contents) := by
  rw [Settings.Scannable, ← legalTokens_bare, Settings.scan_joined hlegal]
  intro t ht
  rcases List.mem_append.1 ht with ht | ht
  · obtain ⟨content, hcontent, ht⟩ := List.mem_flatMap.1 ht
    exact legalTokens_bare.2 (hlegal content hcontent) t (List.mem_of_mem_dropLast ht)
  · cases List.mem_singleton.1 ht
    decide

/-! ## Compilation -/

/-- Whether there is assembly, and which, is not a matter of positions or of the names of files. -/
theorem Job.assembly_conclude (job : Job) (inputs : List String) (files files' : List SourceFile)
    (c : Compilation) : ({ job with inputs := inputs }.conclude files c).assembly =
      (job.conclude files' c.bare).assembly := by
  cases c with
  | unreadable => rfl
  | unchecked => rfl
  | rejected => rfl
  | lowered p reports assembly => cases assembly <;> rfl

theorem Diagnostic.map_of_bare {α : Type} {ds ds' : List Diagnostic}
    (f : Severity → String → String → α) (h : ds'.map Diagnostic.bare = ds.map Diagnostic.bare) :
    ds'.map (fun d => f d.severity d.flag d.message) =
      ds.map fun d => f d.severity d.flag d.message := by
  have hmap := congrArg (List.map fun d => f d.severity d.flag d.message) h
  simpa [Function.comp_def, Diagnostic.bare] using hmap

/-- Files of legal tokens are compiled as the one file in which they stand with line breaks between
    them. -/
theorem Job.compile_joined (job : Job) {read read' : String → Except FileError Content}
    {contents : List Content} {path : String} (hread : job.inputs.map read = contents.map .ok)
    (hlegal : ∀ content ∈ contents, job.settings.Scannable content)
    (hread' : read' path = .ok ([10].intercalate contents)) :
    ({ job with inputs := [path] }.compile read').assembly = (job.compile read).assembly ∧
    ∃ files tokens files' tokens',
      job.settings.gather read 0 job.inputs = .ok (files, tokens) ∧
      job.settings.gather read' 0 [path] = .ok (files', tokens') ∧
      (Compilation.run job.settings job.settings.allows tokens').diagnostics.map
          (fun d => (d.severity, d.flag, d.message)) =
        (Compilation.run job.settings job.settings.allows tokens).diagnostics.map
          fun d => (d.severity, d.flag, d.message) := by
  obtain ⟨files, tokens, hgather, htokens⟩ := Settings.gather_legal hread hlegal 0
  have hread' : [path].map read' = [[10].intercalate contents].map .ok := by simp [hread']
  obtain ⟨files', tokens', hgather', htokens'⟩ := Settings.gather_legal hread'
    (List.forall_mem_singleton.2 (Settings.scannable_joined hlegal)) 0
  have hbare : tokens'.map Token.bare = tokens.map Token.bare := by
    rw [htokens, htokens', List.flatMap_singleton, Settings.fileTokens,
      Settings.scan_joined hlegal, List.dropLast_concat]
  have hrun := Compilation.run_bare_tokens job.settings job.settings.allows hbare
  refine ⟨?_, files, tokens, files', tokens', hgather, hgather', ?_⟩
  · simp only [Job.compile, hgather, hgather']
    refine (Job.assembly_conclude job [path] files' files _).trans ?_
    rw [hrun]
    exact (Job.assembly_conclude job job.inputs files files _).symm
  · refine Diagnostic.map_of_bare (fun severity flag message => (severity, flag, message)) ?_
    rw [← Compilation.diagnostics_bare, ← Compilation.diagnostics_bare, hrun]

/-- A function cut in two after a slash, with a character cut short in a comment at its end, and a call
    of it. -/
def halves : List (String × Content) :=
  [("1", Text.encodeUtf8 "int half(int n) \x7b return n /"),
   ("2", Text.encodeUtf8 "2; \x7d // " ++ [0xC3]),
   ("3", Text.encodeUtf8 "int main() \x7b return half(8); \x7d")]

def halvesJob : Job where
  inputs := halves.map Prod.fst
  settings := {}
  output := "-"
  assemblyOnly := true
  verbose := false
  dump := none
  prints := false
  color := false
  linkerArguments := []

/-- Reads one of the files or, under another name, all of them. -/
def readHalves (path : String) : Except FileError Content :=
  .ok ((halves.lookup path).getD ([10].intercalate (halves.map Prod.snd)))

theorem Job.compile_joined_halves :
    (∀ content ∈ halves.map Prod.snd, halvesJob.settings.Scannable content) ∧
    ∃ text, (halvesJob.compile readHalves).assembly = .ok text ∧
      ({ halvesJob with inputs := ["all"] }.compile readHalves).assembly = .ok text := by
  have hlegal : ∀ content ∈ halves.map Prod.snd, halvesJob.settings.Scannable content := by
    unfold Settings.Scannable LegalTokens
    decide +kernel
  have heval : (halvesJob.compile readHalves).assembly.isOk = true := by decide +kernel
  obtain ⟨hassembly, -⟩ := @Job.compile_joined halvesJob readHalves readHalves
    (halves.map Prod.snd) "all" rfl hlegal rfl
  cases hcompile : (halvesJob.compile readHalves).assembly with
  | error =>
    rw [hcompile] at heval
    cases heval
  | ok text => exact ⟨hlegal, text, rfl, hassembly.trans hcompile⟩

end MiniCompiler
