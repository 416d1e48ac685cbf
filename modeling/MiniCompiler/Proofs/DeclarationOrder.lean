import MiniCompiler.Proofs.AcceptedPrograms
import MiniCompiler.Proofs.SeparateCompilation

/-!
# The order of declarations

The functions of a program may stand in any order. A call is bound to the definition of its name,
wherever it stands, and to the first prototype if there is no definition (`Program.linked?`); the rest
of what the checker makes of a function is the same in every order.

Main statement: `Program.check_perm`.
-/

namespace MiniCompiler

variable {f : Function} {p : Program}

/-! ## What a name stands for -/

/-- The number of the function that a name stands for: the definition of that name, or else its first
    prototype. -/
def Program.linked? (p : Program) (name : String) : Option Nat :=
  (List.findIdx? (fun f => f.name == name && !f.isPrototype) p).or (p.lookup? name)

theorem Program.linked?_concat_of_ne {name : String}
    (h : f.name ≠ name) : Program.linked? (p ++ [f]) name = p.linked? name := by
  simp [Program.linked?, Program.lookup?, List.findIdx?_append, h]

/-- A prototype after a function of its name stands for nothing. -/
theorem Program.linked?_concat_prototype {i : Nat}
    (hf : f.isPrototype = true) (h : p.linked? f.name = some i) :
    Program.linked? (p ++ [f]) f.name = some i := by
  simp only [Program.linked?, Program.lookup?, List.findIdx?_append] at h ⊢
  simp only [List.findIdx?_singleton, hf, Bool.not_true, Bool.and_false, Bool.false_eq_true, if_false,
    Option.map_none, Option.or_none, ← Option.or_assoc, h, Option.some_or]

/-- The first function of a name stands for it, and so does a definition after prototypes. -/
theorem Program.linked?_concat_self
    (h : ∀ g ∈ p, g.name = f.name → g.isPrototype = true ∧ f.isPrototype = false) :
    Program.linked? (p ++ [f]) f.name = some p.length := by
  have hnone : List.findIdx? (fun g => g.name == f.name && !g.isPrototype) p = none := by
    simp only [List.findIdx?_eq_none_iff, Bool.and_eq_false_imp, beq_iff_eq, Bool.not_eq_false']
    exact fun g hg hname => (h g hg hname).1
  simp only [Program.linked?, Program.lookup?, List.findIdx?_append, hnone, Option.none_or]
  cases hf : f.isPrototype with
  | false => simp [hf]
  | true =>
    have hlookup : List.findIdx? (fun g => g.name == f.name) p = none := by
      simp only [List.findIdx?_eq_none_iff, beq_eq_false_iff_ne]
      intro g hg hname
      cases hf.symm.trans (h g hg hname).2
    simp [hf, hlookup]

theorem Program.linked?_eq_none {name : String} :
    p.linked? name = none ↔ ∀ f ∈ p, f.name ≠ name := by
  simp only [Program.linked?, Program.lookup?, Option.or_eq_none_iff, List.findIdx?_eq_none_iff,
    Bool.and_eq_false_imp, beq_iff_eq, beq_eq_false_iff_ne]
  exact ⟨fun h => h.2, fun h => ⟨fun f hf hname => absurd hname (h f hf), h⟩⟩

namespace Declared

variable {s : Settings} {d : Declared} {f : Function} {fs : Program}

/-- The declared functions are those that the names of `fs` stand for. A prototype stands for a name
    only if it has no definition. -/
structure Links (d : Declared) (fs : Program) : Prop where
  number : ∀ name, (d.find? name).map Prod.fst = fs.linked? name
  prototype : ∀ {name e}, d.find? name = some e → e.2.isPrototype = true →
    ∀ f ∈ fs, f.name = name → f.isPrototype = true

theorem links_nil : Links [] [] := ⟨fun _ => rfl, by simp⟩

/-- `f` comes to stand for its name. -/
theorem Links.set {d' : Declared} (hd : d.Links fs)
    (hd' : ∀ name, d'.find? name = if f.name = name then some (fs.length, f) else d.find? name)
    (h : ∀ g ∈ fs, g.name = f.name → g.isPrototype = true ∧ f.isPrototype = false) :
    d'.Links (fs ++ [f]) := by
  refine ⟨fun name => ?_, fun {name e} he hproto g hg hname => ?_⟩
  · rw [hd']
    split
    · rename_i hname
      subst hname
      exact (Program.linked?_concat_self h).symm
    · rename_i hname
      rw [Program.linked?_concat_of_ne hname, hd.number]
  · rw [hd'] at he
    obtain hg | hg := List.mem_append.1 hg
    · split at he
      · rename_i hname'
        cases he
        exact (h g hg (hname.trans hname'.symm)).1
      · exact hd.prototype he hproto g hg hname
    · cases List.mem_singleton.1 hg
      rw [if_pos hname] at he
      cases he
      exact hproto

theorem Links.declare (hd : d.Links fs) (h : NoErrors (d.declare s fs.length f).2) :
    (d.declare s fs.length f).1.Links (fs ++ [f]) := by
  obtain ⟨hnone, heq⟩ | ⟨e, hsome, hproto, heq⟩ | ⟨e, hsome, hproto, hdef, heq⟩ := declare_cases h
  · have hnew : ∀ g ∈ fs, g.name ≠ f.name := by
      rw [← Program.linked?_eq_none, ← hd.number, hnone]
      rfl
    rw [heq]
    exact hd.set (find?_concat hnone) fun g hg hname => absurd hname (hnew g hg)
  · rw [heq]
    have hlinked : fs.linked? f.name = some e.1 := by rw [← hd.number, hsome]; rfl
    refine ⟨fun name => ?_, fun {name e'} he' hproto' g hg hname => ?_⟩
    · rw [hd.number]
      by_cases hname : f.name = name
      · subst hname
        rw [hlinked, Program.linked?_concat_prototype hproto hlinked]
      · rw [Program.linked?_concat_of_ne hname]
    · obtain hg | hg := List.mem_append.1 hg
      · exact hd.prototype he' hproto' g hg hname
      · cases List.mem_singleton.1 hg
        exact hproto
  · rw [heq]
    exact hd.set (find?_replace hsome) fun g hg hname => ⟨hd.prototype hsome hproto g hg hname, hdef⟩

theorem links_declareAll (s : Settings) (gs : List Function) : ∀ {d : Declared} {fs : Program},
    d.Links fs → NoErrors (d.declareAll s fs.length gs).2 →
      (d.declareAll s fs.length gs).1.Links (fs ++ gs) := by
  induction gs with
  | nil =>
    intro d fs hd _
    simpa [Declared.declareAll] using hd
  | cons g gs ih =>
    intro d fs hd h
    simp only [Declared.declareAll, noErrors_append] at h ⊢
    obtain ⟨hfirst, hrest⟩ := h
    have hlength : fs.length + 1 = (fs ++ [g]).length := by simp
    rw [hlength] at hrest ⊢
    have hall := ih (hd.declare hfirst) hrest
    simpa using hall

end Declared

/-! ## Trees without callees -/

theorem Expr.retellAll_eq_self_of {m : Retelling} {args : List (Bool × Expr)}
    (h : ∀ a ∈ args, a.2.retell m = a.2) : Expr.retellAll m args = args := by
  induction args with
  | nil => rfl
  | cons a args ih =>
    rw [Expr.retellAll, h a (by simp), ih fun b hb => h b (by simp [hb])]

theorem Stmt.retellAll_eq_self_of {m : Retelling} {stmts : List Stmt}
    (h : ∀ s ∈ stmts, s.retell m = s) : Stmt.retellAll m stmts = stmts := by
  induction stmts with
  | nil => rfl
  | cons s stmts ih =>
    rw [Stmt.retellAll, h s (by simp), ih fun t ht => h t (by simp [ht])]

theorem Expr.retell_binary (m : Retelling) (p : Pos) (op : BinaryOp) (l r : Expr) :
    (Expr.binary p op l r).retell m = .binary (m.pos p) op (l.retell m) (r.retell m) := by
  cases op <;> rfl

section

/- A tree that was read has no callees yet. -/
variable {m : Retelling} (hpos : ∀ p, m.pos p = p) (hcallee : ∀ name, m.callee name none = none)
  {allows : Feature → Bool} {ts : List Token}

include hpos hcallee

theorem Expr.Spelled.retell_eq_self {r : Rule} {e : Expr} (h : Expr.Spelled r ts e) :
    e.retell m = e := by
  induction h with
  | assign _ _ _ ih => rw [Expr.retell, hpos, Variable.retell_eq_self hpos, ih]
  | operators _ ih | operand _ _ ih | atom _ ih | parens _ _ _ ih => exact ih
  | operation _ _ _ _ ihl ihr => rw [Expr.retell_binary, hpos, ihl, ihr]
  | sign _ _ ih => rw [Expr.retell, hpos, ih]
  | number | true | false => rw [Expr.retell, hpos]
  | var => rw [Expr.retell, Variable.retell_eq_self hpos]
  | callEmpty => rw [Expr.retell, hpos, hcallee]; rfl
  | @call f lp rp ts e more _ _ _ _ _ _ ih ihmore =>
    have hargs : ∀ a ∈ (e :: more.map NextArg.arg).map (Bool.false, ·), a.2.retell m = a.2 := by
      simp only [List.mem_map, List.mem_cons]
      rintro a ⟨e', rfl | ⟨n, hn, rfl⟩, rfl⟩
      · exact ih
      · exact ihmore n hn
    rw [Expr.retell, hpos, hcallee, Expr.retellAll_eq_self_of hargs]

theorem Expr.SpelledOrAbsent.retell_eq_self {e : Expr} (h : Expr.SpelledOrAbsent ts e) :
    e.retell m = e := by
  cases h with
  | absent => rfl
  | present he => exact he.retell_eq_self hpos hcallee

theorem Local.Spelled.retell_eq_self {v : Local} (h : Local.Spelled ts v) : v.retell m = v := by
  cases h with
  | bare => rw [Local.retell, hpos]; rfl
  | init _ _ he => rw [Local.retell, hpos, he.retell_eq_self hpos hcallee]

theorem Stmt.Declares.retell_eq_self {s : Stmt} (h : Stmt.Declares ts s) : s.retell m = s := by
  obtain ⟨-, hvars⟩ := h
  have hall : ∀ {us vars}, SpelledList Local.Spelled us vars → vars.map (Local.retell m) = vars := by
    intro us vars hvars
    induction hvars with
    | last hv => rw [List.map_singleton, hv.retell_eq_self hpos hcallee]
    | next hv _ _ ih => rw [List.map_cons, hv.retell_eq_self hpos hcallee, ih]
  rw [Stmt.retell, hpos, hall hvars]

theorem Stmt.SpelledInit.retell_eq_self {s : Stmt} (h : Stmt.SpelledInit ts s) : s.retell m = s := by
  cases h with
  | absent => rfl
  | declares hs => exact hs.retell_eq_self hpos hcallee
  | expr he => rw [Stmt.retell, hpos, he.retell_eq_self hpos hcallee]

theorem Stmt.Spelled.retell_eq_self {s : Stmt} (h : Stmt.Spelled allows ts s) : s.retell m = s := by
  induction h with
  | @block lb rb items _ _ _ ih =>
    have hall : ∀ s ∈ items.map Prod.snd, s.retell m = s := by
      intro s hs
      obtain ⟨i, hi, rfl⟩ := List.mem_map.1 hs
      exact ih i hi
    rw [Stmt.retell, hpos, Stmt.retellAll_eq_self_of hall]
  | empty | breakLoop | continueLoop => rw [Stmt.retell, hpos]
  | locals hs => exact hs.retell_eq_self hpos hcallee
  | cond _ _ htest _ _ ih =>
    rw [Stmt.retell, hpos, htest.retell_eq_self hpos hcallee, ih]
    rfl
  | condElse _ _ htest _ _ _ _ _ ihyes ihno =>
    rw [Stmt.retell, hpos, htest.retell_eq_self hpos hcallee, ihyes, ihno]
  | whileLoop _ _ htest _ _ ih =>
    rw [Stmt.retell, hpos, htest.retell_eq_self hpos hcallee, ih]
  | forLoop _ _ _ hinit _ htest _ hstep _ _ ih =>
    rw [Stmt.retell, hpos, hinit.retell_eq_self hpos hcallee, htest.retell_eq_self hpos hcallee,
      hstep.retell_eq_self hpos hcallee, ih]
  | ret _ he => rw [Stmt.retell, hpos, he.retell_eq_self hpos hcallee]
  | expr he => rw [Stmt.retell, hpos, he.retell_eq_self hpos hcallee]

theorem Function.Spelled.retell_eq_self (h : Function.Spelled allows ts f) :
    f.retell m = f := by
  have hparams (ps : List Param) : ps.map (Param.retell m) = ps :=
    List.map_id'' (Param.retell_eq_self hpos) ps
  cases h with
  | prototype => rw [Function.retell, hpos, hparams]; rfl
  | definition _ _ _ _ _ hbody =>
    have hblock := hbody.retell_eq_self hpos hcallee
    rw [Stmt.retell, Stmt.block.injEq] at hblock
    rw [Function.retell, hpos, hparams, Option.map_some, Body.retell, hblock.1, hblock.2]

theorem Program.Spelled.retell_eq_self (h : Program.Spelled allows ts p) :
    ∀ f ∈ p, f.retell m = f := by
  intro f hf
  obtain ⟨_, -, hf⟩ := h.exists_function f hf
  exact hf.retell_eq_self hpos hcallee

end

/-! ## Trees whose calls are bound -/

/-- Retellings that do the same to a tree whose calls are bound in a context. -/
structure Retelling.AgreeIn (c : TypingContext) (m m' : Retelling) : Prop where
  pos : ∀ p, m.pos p = m'.pos p
  callee : ∀ {name e}, c.declared.find? name = some e →
    m.callee name (some e.1) = m'.callee name (some e.1)

section

variable {m m' : Retelling} {c : TypingContext}

theorem Variable.retell_congr (hm : m.AgreeIn c m') (v : Variable) : v.retell m = v.retell m' := by
  rw [Variable.retell, Variable.retell, hm.pos]

mutual

theorem Expr.Elab.retell_congr (hm : m.AgreeIn c m') {env : Env} {e e' : Expr} {t : Ty}
    (h : Expr.Elab c env e e' t) : e'.retell m = e'.retell m' := by
  cases h with
  | int | bool => simp only [Expr.retell, hm.pos]
  | var => simp only [Expr.retell, Variable.retell_congr hm]
  | assign _ he =>
    simp only [Expr.retell, hm.pos, Variable.retell_congr hm, Expr.Elab.retell_congr hm he]
  | neg he | not he => simp only [Expr.retell, hm.pos, Expr.Elab.retell_congr hm he]
  | call hfind _ hargs =>
    simp only [Expr.retell, hm.pos, hm.callee hfind, Expr.ElabArgs.retell_congr hm hargs]
  | arith _ hl hr | order _ _ hl hr | equality _ hl hr | logic hl hr =>
    simp only [Expr.retell, hm.pos, Expr.Elab.retell_congr hm hl, Expr.Elab.retell_congr hm hr]

theorem Expr.ElabArgs.retell_congr (hm : m.AgreeIn c m') {env : Env} {ps : List Param}
    {args args' : List (Bool × Expr)} (h : Expr.ElabArgs c env ps args args') :
    Expr.retellAll m args' = Expr.retellAll m' args' := by
  cases h with
  | nil => rfl
  | cons he hargs =>
    simp only [Expr.retellAll, Expr.Elab.retell_congr hm he, Expr.ElabArgs.retell_congr hm hargs]

end

theorem Expr.ElabOrAbsent.retell_congr (hm : m.AgreeIn c m') {env : Env} {ok : Ty → Prop} {e e' : Expr}
    (h : Expr.ElabOrAbsent c env ok e e') : e'.retell m = e'.retell m' := by
  cases h with
  | absent => rfl
  | present _ he => exact he.retell_congr hm

theorem Expr.ElabEffect.retell_congr (hm : m.AgreeIn c m') {env : Env} {e e' : Expr}
    (h : Expr.ElabEffect c env e e') : e'.retell m = e'.retell m' := by
  cases h with
  | value he => exact he.retell_congr hm
  | call hfind hargs =>
    simp only [Expr.retell, hm.pos, hm.callee hfind, hargs.retell_congr hm]

theorem Local.ElabAll.retell_congr (hm : m.AgreeIn c m') {type : Ty} {env env' : Env} {fr fr' : Frame}
    {vars vars' : List Local} (h : Local.ElabAll c type env fr vars vars' env' fr') :
    vars'.map (Local.retell m) = vars'.map (Local.retell m') := by
  induction h with
  | nil => rfl
  | cons hinit _ _ ih =>
    simp only [List.map_cons, Local.retell, hm.pos, hinit.retell_congr hm, ih]

mutual

theorem Stmt.Elab.retell_congr (hm : m.AgreeIn c m') {f : Function} {inLoop : Bool}
    {env env' : Env} {fr fr' : Frame} {s s' : Stmt}
    (h : Stmt.Elab c f inLoop env fr s s' env' fr') : s'.retell m = s'.retell m' := by
  cases h with
  | block hall => simp only [Stmt.retell, hm.pos, Stmt.ElabAll.retell_congr hm hall]
  | empty | breakLoop | continueLoop => simp only [Stmt.retell, hm.pos]
  | expr he => simp only [Stmt.retell, hm.pos, he.retell_congr hm]
  | locals _ hvars => simp only [Stmt.retell, hm.pos, hvars.retell_congr hm]
  | cond htest hyes =>
    simp only [Stmt.retell, hm.pos, htest.retell_congr hm, Stmt.Elab.retell_congr hm hyes]
  | condElse htest hyes hno =>
    simp only [Stmt.retell, hm.pos, htest.retell_congr hm, Stmt.Elab.retell_congr hm hyes,
      Stmt.Elab.retell_congr hm hno]
  | whileLoop htest hbody =>
    simp only [Stmt.retell, hm.pos, htest.retell_congr hm, Stmt.Elab.retell_congr hm hbody]
  | forLoop htest hstep hbody =>
    simp only [Stmt.retell, hm.pos, htest.retell_congr hm, hstep.retell_congr hm,
      Stmt.Elab.retell_congr hm hbody]
  | forLoopInit hinit htest hstep hbody =>
    simp only [Stmt.retell, hm.pos, Stmt.Elab.retell_congr hm hinit, htest.retell_congr hm,
      hstep.retell_congr hm, Stmt.Elab.retell_congr hm hbody]
  | ret he => simp only [Stmt.retell, hm.pos, he.retell_congr hm]

theorem Stmt.ElabAll.retell_congr (hm : m.AgreeIn c m') {f : Function} {inLoop : Bool}
    {env env' : Env} {fr fr' : Frame} {stmts stmts' : List Stmt}
    (h : Stmt.ElabAll c f inLoop env fr stmts stmts' env' fr') :
    Stmt.retellAll m stmts' = Stmt.retellAll m' stmts' := by
  cases h with
  | nil => rfl
  | cons hs hall =>
    simp only [Stmt.retellAll, Stmt.Elab.retell_congr hm hs, Stmt.ElabAll.retell_congr hm hall]

end

theorem Function.Elab.retell_congr (hm : m.AgreeIn c m') {f f' : Function} (hf : f.Regular)
    (h : Function.Elab c f f') : f'.retell m = f'.retell m' := by
  have hparams : Param.retell m = Param.retell m' := by
    funext p
    rw [Param.retell, Param.retell, hm.pos]
  cases h with
  | prototype hproto =>
    have hbody : f.body = none := by
      rw [hf] at hproto
      exact Option.isNone_iff_eq_none.1 hproto
    simp only [Function.retell, hm.pos, hparams, hbody, Option.map_none]
  | definition _ _ _ hall =>
    simp only [Function.retell, Body.retell, hm.pos, hparams, Option.map_some, hall.retell_congr hm]

end

/-! ## Linking -/

/-- Binds every call to the number that `link` gives for its name. -/
def Retelling.linking (link : String → Option Nat) : Retelling :=
  { Retelling.same with callee := fun name _ => link name }

/-- The same for the calls that are bound. -/
def Retelling.relinking (link : String → Option Nat) : Retelling :=
  { Retelling.linking link with callee := fun name i => i.bind fun _ => link name }

/-- A function in which every call is bound to the number that `link` gives for its name. -/
def Function.link (link : String → Option Nat) (f : Function) : Function :=
  f.retell (.linking link)

theorem Retelling.reports_relinking (link : String → Option Nat) (rs : List Report) :
    (Retelling.relinking link).reports rs = rs := Retelling.reports_same rs

namespace TypingContext

variable {c c' : TypingContext} {link : String → Option Nat} {f : Function}

theorem Retold.reportsFor_relinking (h : c.Retold (.relinking link) c')
    (hf : f.retell (.relinking link) = f) : c'.reportsFor f = c.reportsFor f := by
  have hcheck := h.checkFunction f
  rw [hf] at hcheck
  rw [reportsFor, reportsFor, hcheck, FunctionCheck.retell, Retelling.reports_relinking]

theorem Retold.checked_relinking (h : c.Retold (.relinking link) c')
    (hf : f.retell (.relinking link) = f) : c'.checked f = (c.checked f).retell (.relinking link) := by
  have hcheck := h.checkFunction f
  rw [hf] at hcheck
  rw [checked, checked, hcheck]
  split
  · exact hf.symm
  · rfl

end TypingContext

/-- A function that was accepted has no call that is not bound. -/
theorem Function.Elab.relink_eq_link {c : TypingContext} {link link' : String → Option Nat}
    (hlink : ∀ {name e}, c.declared.find? name = some e → link name = link' name) {f f' : Function}
    (hf : f.Regular) (h : Function.Elab c f f') : f'.retell (.relinking link) = f'.link link' := by
  have hagree : Retelling.AgreeIn c (.relinking link) (.linking link') := ⟨fun _ => rfl, hlink⟩
  exact h.retell_congr hagree hf

theorem Function.Agrees.symm {f g : Function} (h : f.Agrees g) : g.Agrees f := by
  intro hname
  obtain ⟨hsignature, hbody⟩ := h hname.symm
  exact ⟨hsignature.symm, hbody.symm⟩

namespace Program

variable {s : Settings} {p q : Program}

section

variable (hregular : ∀ f ∈ p, f.Regular)

include hregular

theorem noErrors_declare_iff :
    NoErrors (p.declare s).2 ↔ p.Pairwise Function.Agrees := by
  obtain ⟨hiff, -⟩ := @Declared.noErrors_declareAll s p [] 0 [] Declared.covers_nil
    (by simpa using hregular)
  exact hiff.trans (by simp)

theorem covers_declare (h : NoErrors (p.declare s).2) :
    (p.declare s).1.declared.Covers p :=
  (@Declared.noErrors_declareAll s p [] 0 [] Declared.covers_nil (by simpa using hregular)).2 h

omit hregular in
theorem links_declare (h : NoErrors (p.declare s).2) : (p.declare s).1.declared.Links p :=
  Declared.links_declareAll s p Declared.links_nil h

/-- A definition stands for its name, wherever it stands. -/
theorem linked?_definition (hagree : p.Pairwise Function.Agrees)
    {i : Nat} (hf : p[i]? = some f) (hdef : f.isPrototype = false) :
    p.linked? f.name = some i := by
  obtain ⟨hi, rfl⟩ := List.getElem?_eq_some_iff.1 hf
  have hfind : List.findIdx? (fun g => g.name == p[i].name && !g.isPrototype) p = some i := by
    rw [List.findIdx?_eq_some_iff_getElem]
    refine ⟨hi, by simp [hdef], fun j hj => ?_⟩
    have hjp : j < p.length := Nat.lt_trans hj hi
    have hagrees := List.pairwise_iff_getElem.1 hagree j i hjp hi hj
    have hri := hregular p[i] (List.getElem_mem hi)
    have hrj := hregular p[j] (List.getElem_mem hjp)
    -- an earlier definition of the name would not agree with this one
    intro hboth
    simp only [Bool.and_eq_true, beq_iff_eq, Bool.not_eq_eq_eq_not, Bool.not_true] at hboth
    obtain ⟨-, hbody | hbody⟩ := hagrees hboth.1
    · rw [hrj, hbody] at hboth
      cases hboth.2
    · rw [hri, hbody] at hdef
      cases hdef
  rw [Program.linked?, hfind, Option.some_or]

/-- In another order, names stand for functions of the same signatures. -/
theorem retold_of_perm (hp : NoErrors (p.declare s).2)
    (hq : NoErrors (q.declare s).2) (hperm : p.Perm q) :
    (p.declare s).1.Retold (.relinking q.linked?) (q.declare s).1 := by
  have hcovers := covers_declare hregular hp
  have hcovers' := covers_declare (fun f hf => hregular f (hperm.mem_iff.2 hf)) hq
  refine ⟨⟨rfl, fun _ => (Bool.and_true _).symm⟩, fun name => ?_⟩
  have hnumber := (links_declare hq).number name
  cases hfind : (p.declare s).1.declared.find? name with
  | none =>
    cases hfind' : (q.declare s).1.declared.find? name with
    | none => exact .none
    | some e =>
      obtain ⟨i, g, hg, -⟩ := hcovers.find e.2 (hperm.mem_iff.2 (hcovers'.mem hfind'))
      rw [Declared.name_of_find? hfind', hfind] at hg
      cases hg
  | some e =>
    obtain ⟨i, g, hg, hsignature, -⟩ := hcovers'.find e.2 (hperm.mem_iff.1 (hcovers.mem hfind))
    rw [Declared.name_of_find? hfind] at hg
    rw [hg] at hnumber ⊢
    exact .some ⟨hnumber.symm, hsignature⟩

end

theorem accepted_iff_noErrors (hwhole : ∀ f ∈ p, f.Whole) : (p.check s).accepted = true ↔
    NoErrors (p.declare s).2 ∧ ∀ f ∈ p, NoErrors ((p.declare s).1.reportsFor f) := by
  rw [Program.check_eq hwhole]
  simp [ProgramCheck.accepted, NoErrors, reportsByFunction]

theorem elaborates_checked (hwhole : ∀ f ∈ p, f.Whole) (h : (p.check s).accepted = true) :
    ∀ f ∈ p, Function.Elab (p.declare s).1 f ((p.declare s).1.checked f) := by
  have helab := (Program.check_elaborates hwhole).2 h
  rw [Program.check_eq hwhole] at helab
  exact List.forall₂_same.1 (List.forall₂_map_right_iff.1 helab)

end Program

/-- The functions of a program may stand in any order. Every order is accepted if one is; then each
    function becomes the same, but for the numbers of the functions that it calls: every call is of a
    function of the program, and bound to the only definition of its name, or else to its first
    prototype. -/
theorem Program.check_perm {s : Settings} {allows : Feature → Bool} {tokens : List Token} {p : Program}
    (hparse : Program.parse allows tokens = .ok p) :
    (∀ q : Program, p.Perm q → (q.check s).accepted = (p.check s).accepted) ∧
    ((p.check s).accepted = true → ∃ g : Function → Function, ∀ q : Program, p.Perm q →
      (∀ link : String → Option Nat, (∀ f ∈ q, link f.name = q.linked? f.name) →
        (q.check s).program = q.map fun f => (g f).link link) ∧
      ∀ (i : Nat) (f : Function), q[i]? = some f → f.isPrototype = false →
        q.linked? f.name = some i) := by
  obtain ⟨ts, rest, -, hspelled⟩ := Program.spelled_prefix_of_parse hparse
  have hwhole := hspelled.whole
  have hregular := hspelled.regular
  have hself (link : String → Option Nat) : ∀ f ∈ p, f.retell (.relinking link) = f :=
    hspelled.retell_eq_self (fun _ => rfl) fun _ => rfl
  have hwhole' {q : Program} (hperm : p.Perm q) : ∀ f ∈ q, f.Whole :=
    fun f hf => hwhole f (hperm.mem_iff.2 hf)
  have hregular' {q : Program} (hperm : p.Perm q) : ∀ f ∈ q, f.Regular :=
    fun f hf => hregular f (hperm.mem_iff.2 hf)
  have hdeclare {q : Program} (hperm : p.Perm q) :
      NoErrors (q.declare s).2 ↔ NoErrors (p.declare s).2 := by
    rw [noErrors_declare_iff hregular, noErrors_declare_iff (hregular' hperm)]
    exact (hperm.pairwise_iff fun h => h.symm).symm
  -- the declarations agree in every order, and then the reports are those of the same functions
  have haccepted {q : Program} (hperm : p.Perm q) :
      (q.check s).accepted = (p.check s).accepted := by
    rw [Bool.eq_iff_iff, accepted_iff_noErrors hwhole, accepted_iff_noErrors (hwhole' hperm),
      hdeclare hperm]
    refine and_congr_right fun hp => ?_
    have hretold := retold_of_perm hregular hp ((hdeclare hperm).2 hp) hperm
    constructor
    · intro hq f hf
      rw [← hretold.reportsFor_relinking (hself _ f hf)]
      exact hq f (hperm.mem_iff.1 hf)
    · intro hreports f hf
      rw [hretold.reportsFor_relinking (hself _ f (hperm.mem_iff.2 hf))]
      exact hreports f (hperm.mem_iff.2 hf)
  refine ⟨fun q hperm => haccepted hperm, fun hp => ⟨(p.declare s).1.checked, fun q hperm => ?_⟩⟩
  have hnone := ((accepted_iff_noErrors hwhole).1 hp).1
  have hnone' := (hdeclare hperm).2 hnone
  have hretold := retold_of_perm hregular hnone hnone' hperm
  refine ⟨fun link hlink => ?_, fun i f hf hdef => ?_⟩
  · have hbound {name : String} {e : Nat × Function}
        (hfind : (p.declare s).1.declared.find? name = some e) : q.linked? name = link name := by
      have hmem := hperm.mem_iff.1 ((covers_declare hregular hnone).mem hfind)
      have hname := hlink e.2 hmem
      rwa [Declared.name_of_find? hfind, eq_comm] at hname
    rw [Program.check_eq (hwhole' hperm)]
    refine List.map_congr_left fun f hf => ?_
    have hmem := hperm.mem_iff.2 hf
    rw [hretold.checked_relinking (hself _ f hmem)]
    exact (elaborates_checked hwhole hp f hmem).relink_eq_link hbound (hregular f hmem)
  · have hagree := (noErrors_declare_iff (hregular' hperm)).1 hnone'
    exact linked?_definition (hregular' hperm) hagree hf hdef

/-- Two functions that call each other, with a prototype before them. -/
def mutualSource : List Char :=
  "int g(int n); int f(int n) { return g(n); } int g(int n) { return f(n - 1); }".toList

theorem Program.check_perm_mutualSource :
    ∃ (p q : Program) (g : Function → Function),
      Program.parse (fun _ => true) (scan {} mutualSource) = .ok p ∧ q = p.reverse ∧
      (q.check {}).accepted = true ∧
      (p.check {}).program = p.map (fun f => (g f).link p.linked?) ∧
      (q.check {}).program = q.map (fun f => (g f).link q.linked?) ∧
      p.linked? "g" = some 2 ∧ q.linked? "g" = some 0 := by
  obtain ⟨p, hparse, heval⟩ := exists_of_any
    (show (Program.parse (fun _ => true) (scan {} mutualSource)).toOption.any (fun p =>
      (p.check {}).accepted && p.linked? "g" == some 2 &&
      Program.linked? p.reverse "g" == some 0) = true by decide +kernel)
  simp only [Bool.and_eq_true, beq_iff_eq] at heval
  obtain ⟨⟨haccepted, hg⟩, hg'⟩ := heval
  obtain ⟨hsame, hbound⟩ := Program.check_perm (s := {}) hparse
  obtain ⟨g, hprograms⟩ := hbound haccepted
  have hreverse : p.Perm p.reverse := p.reverse_perm.symm
  refine ⟨p, p.reverse, g, hparse, rfl, (hsame _ hreverse).trans haccepted, ?_, ?_, hg, hg'⟩
  · exact (hprograms p (.refl p)).1 _ fun _ _ => rfl
  · exact (hprograms p.reverse hreverse).1 _ fun _ _ => rfl

end MiniCompiler
