import MiniCompiler.Command
import MiniCompiler.Proofs.Printing
import MiniCompiler.Proofs.StackDiscipline
import MiniCompiler.Proofs.WrittenLines

/-!
# The text of assembly

Assembly is written line by line. `Line.readAll` reads such a text, and finds the lines of an accepted
program again in what a job gives, as they are written (`Job.compile_readAll`). So what holds of the
lines, of their labels, of the height of the stack and of the machine that runs them, holds of the text.
-/

namespace MiniCompiler

open Text

/-! ## Reading -/

def Operand.read (cs : List Char) : Operand :=
  match splitAt '(' cs with
  | [offset, base] => .mem ((int64? offset).getD 0) (String.ofList base.dropLast)
  | _ => if cs.head? = some '$' then .imm ((int64? cs.tail).getD 0) else .reg (String.ofList cs)

/-- The instructions of two operands, by their names without a suffix. -/
def Instr.binary : List (String × (Operand → Operand → Instr)) :=
  [("mov", .mov), ("lea", .lea), ("add", .add), ("sub", .sub), ("imul", .imul), ("xor", .xor),
    ("or", .or), ("cmp", .cmp)]

/-- The instructions of one operand. -/
def Instr.unary : List (String × (Operand → Instr)) :=
  [("push", .push), ("pop", .pop), ("neg", .neg), ("idiv", .idiv)]

def Cond.all : List Cond := [.l, .nl, .le, .nle, .g, .ng, .ge, .nge, .e, .ne, .nz, .z]

/-- The instruction of a name, with the texts of its operands. -/
def Instr.read (suffix name : String) : List (List Char) → Instr
  | [a, b] =>
    match Instr.binary.find? (·.1 ++ suffix == name) with
    | some (_, i) => i (.read a) (.read b)
    | none => .loadWide ((int64? a.tail).getD 0) (.read b)
  | [a] =>
    match Instr.unary.find? (·.1 ++ suffix == name), Cond.all.find? ("j" ++ ·.text == name) with
    | some (_, i), _ => i (.read a)
    | none, some c => .jumpIf c (.read a)
    | none, none => if name = "jmp" then .jump (.read a) else .call (String.ofList a) 0
  | _ => if name = "ret" then .ret else .widen name

/-- The line of a name and what follows it. -/
def Line.ofFields (suffix : String) (name : List Char) (fields : List (List Char)) : Line :=
  if name.head? = some '.' then .directive (String.ofList name) (fields.map String.ofList)
  else if name.head? = some '#' then .comment (String.ofList (name.drop 2))
  else .instr (.read suffix (String.ofList name) fields)

/-- A line without its newline. -/
def Line.read (suffix : String) (cs : List Char) : Line :=
  if cs.head? = some '\t' then
    match splitAt '\t' cs.tail with
    | name :: rest => .ofFields suffix name
      ((rest.flatMap (splitAt ',')).map fun field => field.dropWhile (· == ' '))
    | [] => .comment ""
  else .label (.read cs.dropLast)

/-- The lines of a text. -/
def Line.readAll (suffix text : String) : List Line :=
  (splitAt '\n' text.toList).dropLast.map (Line.read suffix)

/-! ## Texts without separators -/

/-- None of the characters that stand between the parts of a line. -/
def Unbroken (cs : List Char) : Prop := ∀ d ∈ ['\n', '\t', ',', ' '], d ∉ cs

instance (cs : List Char) : Decidable (Unbroken cs) := List.decidableBAll _ _

theorem notMem_of_all {p : Char → Bool} {cs : List Char} (h : ∀ c ∈ cs, p c = true) {d : Char}
    (hd : p d = false) : d ∉ cs := fun hmem => by simp [h d hmem] at hd

theorem unbroken_of_all {p : Char → Bool} {cs : List Char} (h : ∀ c ∈ cs, p c = true)
    (hp : ['\n', '\t', ',', ' '].any p = false) : Unbroken cs :=
  fun d hd => notMem_of_all h (Bool.eq_false_iff.2 (List.any_eq_false.1 hp d hd))

theorem Unbroken.append {cs ds : List Char} (hcs : Unbroken cs) (hds : Unbroken ds) :
    Unbroken (cs ++ ds) := fun d hd hmem => (List.mem_append.1 hmem).elim (hcs d hd) (hds d hd)

theorem Unbroken.dropWhile {cs : List Char} (h : Unbroken cs) : cs.dropWhile (· == ' ') = cs := by
  cases cs with
  | nil => rfl
  | cons c cs =>
    refine List.dropWhile_cons_of_neg ?_
    rw [beq_iff_eq]
    rintro rfl
    exact h ' ' (by simp) List.mem_cons_self

theorem toList_toString_negSucc (n : Nat) :
    (toString (Int.negSucc n)).toList = '-' :: (n + 1).repr.toList := String.toList_append ..

theorem isDigit_of_mem_toString {k : Int} : ∀ c ∈ (toString k).toList,
    (c == '-' || c.isDigit) = true := by
  cases k with
  | ofNat n => exact fun c hc => by simp [isDigit_of_mem_repr (n := n) hc]
  | negSucc n =>
    rw [toList_toString_negSucc, List.forall_mem_cons]
    exact ⟨rfl, fun c hc => by simp [isDigit_of_mem_repr hc]⟩

/-- A signed word is read back from its digits. -/
theorem int64?_toString (n : Int) : int64? (toString (wrap n)).toList = some (wrap n) := by
  have hlow := le_wrap n
  have hhigh := wrap_lt n
  generalize wrap n = k at hlow hhigh
  cases k with
  | ofNat m =>
    have hdigits : ∀ c ∈ m.repr.toList, isDigit c = true := fun c hc =>
      (isDigit_of_decimal (isDigit_of_mem_repr hc)).1
    exact (int64?_of_isDigit hdigits).trans (by rw [decimal?_repr, Option.bind_some]; exact if_pos hhigh)
  | negSucc m =>
    rw [toList_toString_negSucc, int64?, decimal?_repr, Option.bind_some, if_pos (by omega)]
    rfl

/-! ## Lines are read back -/

section

variable {s : Settings} {named : String → Prop}

/-- How the names of a machine are spelled. -/
@[reducible]
def Target.Spelled (t : Target) : Prop :=
  (∀ r ∈ t.names, r.toList.head? = some '%' ∧ r.toList.all fun c => c == '%' || c.isLower) ∧
  (t.suffix = "l" ∨ t.suffix = "q") ∧ (t.signExtend = "cltd" ∨ t.signExtend = "cqto") ∧
  ("generated by gmini for " ++ t.name).toList.all fun c => c != '\n' && c != '\t'

theorem Settings.Regular.spelled (hs : s.Regular) : s.target.Spelled := by
  have hall : ∀ t ∈ Target.supported, t.Spelled := by decide
  obtain ⟨t, ht, heq⟩ := hs.supported
  rw [heq]
  exact hall t ht

theorem Operand.unbroken_text (hs : s.Regular) {o : Operand} (ho : o.Legible s.target) :
    Unbroken o.text.toList := by
  have hnumber (k : Int) : Unbroken (toString k).toList :=
    unbroken_of_all isDigit_of_mem_toString (by decide)
  have hregister {r : String} (hr : r ∈ s.target.names) : Unbroken r.toList :=
    unbroken_of_all (List.all_eq_true.1 (hs.spelled.1 _ hr).2) (by decide)
  cases o with
  | imm n => exact String.toList_append .. ▸ Unbroken.append (by decide) (hnumber _)
  | reg r => exact hregister ho
  | mem n r =>
    simp only [text, String.toList_append]
    exact (((hnumber _).append (by decide)).append (hregister ho)).append (by decide)

/-- An operand is read back from its text. -/
theorem Operand.read_text (hs : s.Regular) {o : Operand} (ho : o.Legible s.target) :
    Operand.read o.text.toList = o.asWritten := by
  have hnone (k : Int) : '(' ∉ (toString k).toList := notMem_of_all isDigit_of_mem_toString rfl
  cases o with
  | imm n =>
    have htext : (Operand.imm n).text.toList = '$' :: (toString (wrap n)).toList :=
      String.toList_append ..
    rw [htext, read, splitAt_eq_singleton (by simpa using hnone _)]
    simp only [List.head?_cons, List.tail_cons, int64?_toString]
    rfl
  | reg r =>
    obtain ⟨hhead, hchars⟩ := hs.spelled.1 _ ho
    rw [text, read, splitAt_eq_singleton (notMem_of_all (List.all_eq_true.1 hchars) rfl)]
    simp [hhead, asWritten]
  | mem n r =>
    have htext : (Operand.mem n r).text.toList =
        (toString (wrap n)).toList ++ '(' :: (r.toList ++ [')']) := by
      simp [text, String.toList_append]
    have hbase : '(' ∉ r.toList ++ [')'] := by
      have := notMem_of_all (d := '(') (List.all_eq_true.1 (hs.spelled.1 _ ho).2) rfl
      simpa using this
    rw [htext, read, splitAt_append (hnone _), splitAt_eq_singleton hbase]
    simp only [int64?_toString, List.dropLast_concat, String.ofList_toList]
    rfl

/-- An instruction is read back from its name and its operands, once its label can be. -/
theorem Instr.read_parts (hs : s.Regular) {i : Instr} (hi : i.Legible s named)
    (hlabel : ∀ l, (Line.instr i).jump? = some l → Label.read l.text.toList = l) :
    Instr.read s.target.suffix (i.parts s.target.suffix).1
      ((i.parts s.target.suffix).2.map String.toList) = i.asWritten := by
  have hread {o : Operand} (ho : o.Legible s.target) := Operand.read_text hs ho
  obtain ⟨-, hsuffix, hwiden, -⟩ := hs.spelled
  cases i with
  | mov a b | lea a b | add a b | sub a b | imul a b | xor a b | or a b | cmp a b =>
    rcases hsuffix with h | h <;>
      simp [Instr.read, parts, binary, h, hread hi.1, hread hi.2, asWritten]
  | push a | pop a | neg a | idiv a =>
    rcases hsuffix with h | h <;> simp [Instr.read, parts, unary, h, hread hi, asWritten]
  | loadWide n a =>
    have himm : (Operand.imm n).text.toList = '$' :: (toString (wrap n)).toList :=
      String.toList_append ..
    have hnone : binary.find? (·.1 ++ s.target.suffix == "movabsq") = none := by
      rcases hsuffix with h | h <;> rw [h] <;> rfl
    simp only [Instr.read, parts, List.map_cons, List.map_nil, hnone, himm, List.tail_cons,
      int64?_toString, hread hi]
    rfl
  | widen name =>
    cases hi
    rcases hwiden with h | h <;> simp [Instr.read, parts, h, asWritten]
  | jump l =>
    rcases hsuffix with h | h <;>
      simp [Instr.read, parts, unary, Cond.all, Cond.text, h, hlabel l rfl, asWritten]
  | jumpIf c l =>
    rcases hsuffix with h | h <;> cases c <;>
      simp [Instr.read, parts, unary, Cond.all, Cond.text, h, hlabel l rfl, asWritten]
  | call symbol pushed =>
    rcases hsuffix with h | h <;> simp [Instr.read, parts, unary, Cond.all, Cond.text, h, asWritten]
  | ret => rfl

theorem Instr.isLower_name (hs : s.Regular) {i : Instr} (hi : i.Legible s named) :
    ∀ c ∈ (i.parts s.target.suffix).1.toList, c.isLower = true := by
  obtain ⟨-, hsuffix, hwiden, -⟩ := hs.spelled
  rw [← List.all_eq_true]
  cases i with
  | widen name =>
    cases hi
    rcases hwiden with h | h <;> rw [parts, h] <;> decide
  | jumpIf c l => cases c <;> dsimp only [parts, Cond.text] <;> decide
  | _ => rcases hsuffix with h | h <;> rw [h] <;> dsimp only [parts] <;> decide

/-- A text of one line that is read as `l`. -/
def Line.ReadFrom (suffix text : String) (l : Line) : Prop :=
  ∃ body, text.toList = body ++ ['\n'] ∧ '\n' ∉ body ∧ Line.read suffix body = l

/-- A name with at most two parts is read as such. -/
theorem Line.readFrom_join (suffix : String) {name : String} {parts : List String}
    (hname : Unbroken name.toList) (hparts : ∀ part ∈ parts, Unbroken part.toList)
    (hlength : parts.length ≤ 2) : Line.ReadFrom suffix (Line.join name ", " parts)
      (.ofFields suffix name.toList (parts.map String.toList)) := by
  have hnew {cs : List Char} (h : Unbroken cs) : '\n' ∉ cs := h _ (by simp)
  have htab {cs : List Char} (h : Unbroken cs) : '\t' ∉ cs := h _ (by simp)
  have hcomma {cs : List Char} (h : Unbroken cs) : ',' ∉ cs := h _ (by simp)
  match parts, hlength with
  | [], _ =>
    refine ⟨'\t' :: name.toList, by simp [join], by simpa using hnew hname, ?_⟩
    simp [Line.read, splitAt_eq_singleton (htab hname)]
  | [a], _ =>
    have ha := hparts a (by simp)
    refine ⟨'\t' :: (name.toList ++ '\t' :: a.toList), by simp [join], by simp [hnew hname, hnew ha], ?_⟩
    simp [Line.read, splitAt_append (htab hname), splitAt_eq_singleton (htab ha),
      splitAt_eq_singleton (hcomma ha), ha.dropWhile]
  | [a, b], _ =>
    have ha := hparts a (by simp)
    have hb := hparts b (by simp)
    refine ⟨'\t' :: (name.toList ++ '\t' :: (a.toList ++ ',' :: ' ' :: b.toList)), by simp [join],
      by simp [hnew hname, hnew ha, hnew hb], ?_⟩
    have hfields : '\t' ∉ a.toList ++ ',' :: ' ' :: b.toList := by simp [htab ha, htab hb]
    have hlast : ',' ∉ ' ' :: b.toList := by simp [hcomma hb]
    simp [Line.read, splitAt_append (htab hname), splitAt_eq_singleton hfields,
      splitAt_append (hcomma ha), splitAt_eq_singleton hlast, ha.dropWhile, hb.dropWhile]

/-- A label that is read back from its text. -/
structure Label.Readable (l : Label) : Prop where
  unbroken : Unbroken l.text.toList
  read : Label.read l.text.toList = l

theorem Label.Readable.fresh (n : Nat) : (Label.fresh n).Readable where
  unbroken := by
    have hdigits : Unbroken n.repr.toList :=
      unbroken_of_all (p := Char.isDigit) (fun _ => isDigit_of_mem_repr) (by decide)
    exact String.toList_append .. ▸ Unbroken.append (by decide) hdigits
  read := Label.read_text nofun

theorem Settings.IsSymbol.readable (hstart : ∀ c ∈ s.symbolStart.toList, isWordChar c = true)
    {symbol : String} (h : s.IsSymbol IsName symbol) : (Label.symbol symbol).Readable := by
  obtain ⟨name, hname, rfl⟩ := h
  have hchars : ∀ c ∈ (s.symbolStart ++ name).toList, isWordChar c = true := by
    rw [String.toList_append]
    exact List.forall_mem_append.2 ⟨hstart, hname.chars⟩
  refine ⟨unbroken_of_all hchars (by decide), Label.read_text ?_⟩
  rintro _ ⟨⟩ hdot
  exact notMem_of_all hchars (by decide) (List.mem_of_head? hdot)

/-- A line is read back from its text, if symbols and its label can be. -/
theorem Line.readFrom_render (hs : s.Regular) {l : Line} (hl : l.Legible s named)
    (hsymbol : ∀ symbol, s.IsSymbol named symbol → Unbroken symbol.toList)
    (hlabel : ∀ target, l.label? = some target ∨ l.jump? = some target → target.Readable) :
    Line.ReadFrom s.target.suffix (l.render s.target.suffix) l.asWritten := by
  cases l with
  | instr i =>
    have hlower := i.isLower_name hs hl
    have hparts : ∀ part ∈ (i.parts s.target.suffix).2, Unbroken part.toList := by
      have htext {o : Operand} (ho : o.Legible s.target) := Operand.unbroken_text hs ho
      cases i with
      | mov | lea | add | sub | imul | xor | or | cmp => simp [Instr.parts, htext hl.1, htext hl.2]
      | push | pop | neg | idiv => simp [Instr.parts, htext hl]
      | loadWide n => simp [Instr.parts, htext hl, htext (o := .imm n) trivial]
      | jump | jumpIf => simp [Instr.parts, (hlabel _ (.inr rfl)).unbroken]
      | call => simp [Instr.parts, hsymbol _ hl]
      | widen | ret => simp [Instr.parts]
    have hread := readFrom_join s.target.suffix (unbroken_of_all hlower (by decide)) hparts
      (by cases i <;> simp [Instr.parts])
    have hhead (d : Char) (hd : d.isLower = false) :
        (i.parts s.target.suffix).1.toList.head? ≠ some d :=
      fun h => notMem_of_all hlower hd (List.mem_of_head? h)
    rw [ofFields, if_neg (hhead _ rfl), if_neg (hhead _ rfl), String.ofList_toList,
      i.read_parts hs hl fun l h => (hlabel l (.inr h)).read] at hread
    exact hread
  | label l =>
    obtain ⟨hunbroken, hread⟩ := hlabel l (.inl rfl)
    have hbody : Unbroken (l.text.toList ++ [':']) := hunbroken.append (by decide)
    refine ⟨l.text.toList ++ [':'], by simp [render], hbody _ (by simp), ?_⟩
    rw [Line.read, if_neg fun h => hbody _ (by simp) (List.mem_of_head? h), List.dropLast_concat, hread]
    rfl
  | comment text =>
    obtain ⟨-, -, -, hnone⟩ := hs.spelled
    rw [← show text = _ from hl, List.all_eq_true] at hnone
    refine ⟨'\t' :: '#' :: ' ' :: text.toList, by simp [render], by simp [notMem_of_all hnone], ?_⟩
    have htab : '\t' ∉ '#' :: ' ' :: text.toList := by simp [notMem_of_all hnone]
    simp [Line.read, splitAt_eq_singleton htab, ofFields, asWritten]
  | directive name args =>
    obtain ⟨symbol, hsymbolName, rfl, rfl⟩ | hfixed := hl
    · have hname : Unbroken ".globl".toList := by decide
      have hparts : ∀ part ∈ [symbol], Unbroken part.toList := by simpa using hsymbol _ hsymbolName
      have hread := readFrom_join s.target.suffix hname hparts (by simp)
      simpa [ofFields, render, join, asWritten] using hread
    · simp only [List.mem_cons, List.not_mem_nil, or_false, Prod.mk.injEq] at hfixed
      obtain ⟨rfl, rfl⟩ | ⟨rfl, rfl⟩ := hfixed
      · exact ⟨"\t.text".toList, by rw [render]; decide, by decide, rfl⟩
      · exact ⟨"\t.section\t.note.GNU-stack,\"\",@progbits".toList, by rw [render]; decide, by decide,
          rfl⟩
  | written => exact hl.elim

/-- Lines that are read back one by one are read back together. -/
theorem Line.readAll_renderAll {suffix : String} {ls : List Line}
    (h : ∀ l ∈ ls, l.asWritten.ReadFrom suffix (l.render suffix)) :
    Line.readAll suffix (Line.renderAll suffix ls) = ls.map Line.asWritten := by
  induction ls with
  | nil => rfl
  | cons l ls ih =>
    obtain ⟨body, htext, hnew, hread⟩ := h l List.mem_cons_self
    have hrest := ih fun l hl => h l (List.mem_cons_of_mem _ hl)
    have hcons : (renderAll suffix (l :: ls)).toList =
        body ++ '\n' :: (renderAll suffix ls).toList := by
      simp [renderAll, htext]
    rw [readAll] at hrest ⊢
    rw [hcons, splitAt_append hnew, List.dropLast_cons_of_ne_nil (splitAt_ne_nil _ _), List.map_cons,
      hrest, hread, List.map_cons]

end

/-! ## Programs -/

/-- Lines of an accepted program name machine registers and functions of the program only. -/
theorem Program.legible_assembly {s : Settings} (hs : s.target.registers ≠ []) {p p' : Program}
    (hnames : ∀ f ∈ p, IsName f.name) (hnames' : ∀ f ∈ p', IsName f.name)
    (h : List.Forall₂ (Function.Elab (p.declare s).1) p p') {lines : List Line}
    (hlines : p'.assembly s = .ok lines) : ∀ l ∈ lines, l.Legible s IsName := by
  have hdeclared : (p.declare s).1.Names IsName := by
    intro name i f hfind
    rw [← Declared.name_of_find? hfind]
    exact Declared.of_mem_declareAll hnames (by simp) _ (List.mem_of_find?_eq_some hfind)
  obtain ⟨_, hok, -, hall⟩ := Program.total_code hs hdeclared h hnames' 0
  rw [Program.assembly, hok] at hlines
  cases hlines
  exact hall

/-- The assembly of an accepted program is read back from the text that a job gives, with the same labels
    and the same heights of the stack, and the machine takes the same steps on what is read. -/
theorem Job.compile_readAll {job : Job} (hs : job.settings.Regular)
    (hstart : ∀ c ∈ job.settings.symbolStart.toList, isWordChar c = true)
    {read : String → Except FileError Content} {files : List SourceFile} {tokens : List Token}
    (hgather : job.settings.gather read 0 job.inputs = .ok (files, tokens)) {p : Program}
    (hparse : Program.parse job.settings.allows tokens = .ok p)
    (haccepted : (p.check job.settings).accepted = true) :
    ∃ lines text written, Compilation.run job.settings job.settings.allows tokens =
        .lowered p (p.check job.settings).reports (.ok lines) ∧
      (job.compile read).assembly = .ok text ∧
      Line.readAll job.settings.target.suffix text = written ∧ written = lines.map Line.asWritten ∧
      writtenLabels written = writtenLabels lines ∧
      (∀ t i, stackHeight t written i = stackHeight t lines i) ∧
      (∀ t (m : Machine t.bits), m.asWritten.step t written = (m.step t lines).map Machine.asWritten) ∧
      ∀ t (m m' : Machine t.bits), Machine.Reaches t lines m m' →
        Machine.Reaches t written m.asWritten m'.asWritten := by
  obtain ⟨helaborated, lines, blocks, hrun, hframed, hlines, -, hblocks⟩ :=
    Compilation.run_eq_blocks hs.registers_ne_nil (Settings.endsOnce_gather hgather) hparse haccepted
  have hnames := Program.isName_of_elaborated hgather hparse helaborated
  have hlegible := Program.legible_assembly hs.registers_ne_nil
    (Program.isName_of_parse hgather hparse) hnames helaborated hlines
  have hlabels : ∀ l ∈ writtenLabels lines, l.Readable := by
    intro l hl
    cases l with
    | fresh n => exact .fresh n
    | symbol a =>
      obtain ⟨f, hf, rfl⟩ := Program.mem_definitions_of_written hlines hl
      exact Settings.IsSymbol.readable hstart ⟨_, hnames f (Program.mem_definitions.1 hf).1, rfl⟩
  have hjumps : JumpsWithin [] lines := by
    rw [hframed, ← List.flatMap_id]
    refine .append (.append (.still (by simp [Settings.header, Line.jump?])) (.flatMap ?_)) (.still ?_)
    · intro block hblock
      obtain ⟨f, -, h⟩ := exists_mem_of_forall₂ hblocks hblock
      exact fun l hl target htarget => .inl (h.labelDiscipline.jumps l hl target htarget)
    · unfold Settings.footer
      split <;> simp [Line.jump?]
  have hread : Line.readAll job.settings.target.suffix
      (Line.renderAll job.settings.target.suffix lines) = lines.map Line.asWritten := by
    refine Line.readAll_renderAll fun l hl => Line.readFrom_render hs (hlegible l hl)
      (fun symbol h => (Settings.IsSymbol.readable hstart h).unbroken) fun target h => hlabels _ ?_
    rcases h with h | h
    · exact List.mem_filterMap.2 ⟨l, hl, h⟩
    · exact (hjumps l hl target h).resolve_right List.not_mem_nil
  have htext : (job.compile read).assembly =
      .ok (Line.renderAll job.settings.target.suffix lines) := by
    simp only [Job.compile, hgather, Job.conclude, hrun]
  exact ⟨lines, _, _, hrun, htext, hread, rfl, writtenLabels_map_asWritten lines,
    fun t => stackHeight_map_asWritten t lines, fun t m => m.step_asWritten lines,
    fun _ _ _ h => h.asWritten⟩

end MiniCompiler
