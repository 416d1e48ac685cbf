import MiniCompiler.Proofs.CheckSound
import MiniCompiler.Proofs.Labels

/-!
# Declared functions

If the declarations of a program are without an error, no two definitions share a name, and a call to a
function that has a definition is checked against that definition, whatever prototypes come before or
after it.
-/

namespace MiniCompiler

namespace Declared

variable {s : Settings} {d : Declared} {i : Nat} {f : Function} {c : TypingContext}
  {e : Nat × Function} {fs : List Function}

theorem name_of_find? {name : String} (h : d.find? name = some e) :
    e.2.name = name := by
  unfold Declared.find? at h
  simpa using List.find?_some h

theorem find?_concat (h : d.find? e.2.name = none) (name : String) :
    Declared.find? (d ++ [e]) name = if e.2.name = name then some e else d.find? name := by
  unfold Declared.find? at h ⊢
  rw [List.find?_append]
  split
  · rename_i heq
    subst heq
    simp [h]
  · rename_i hne
    simp [hne]

theorem find?_replace (h : d.find? f.name = some e) (name : String) :
    Declared.find? (d.map fun e => if e.2.name = f.name then (i, f) else e) name =
      if f.name = name then some (i, f) else d.find? name := by
  have hnames : ((fun e : Nat × Function => e.2.name == name) ∘
      fun e => if e.2.name = f.name then (i, f) else e) = fun e => e.2.name == name := by
    funext e
    simp only [Function.comp]
    split
    · rename_i heq
      rw [heq]
    · rfl
  have hmap : Declared.find? (d.map fun e => if e.2.name = f.name then (i, f) else e) name =
      (d.find? name).map fun e => if e.2.name = f.name then (i, f) else e := by
    unfold Declared.find?
    rw [List.find?_map, hnames]
  rw [hmap]
  split
  · rename_i heq
    subst heq
    simp [h, name_of_find? h]
  · rename_i hne
    cases hfind : d.find? name with
    | none => rfl
    | some e' => simp [name_of_find? hfind, Ne.symm hne]

/-- What a declaration without an error does. -/
theorem declare_cases (h : NoErrors (d.declare s i f).2) :
    (d.find? f.name = none ∧ (d.declare s i f).1 = d ++ [(i, f)]) ∨
    (∃ e, d.find? f.name = some e ∧ f.isPrototype = true ∧ (d.declare s i f).1 = d) ∨
    (∃ e, d.find? f.name = some e ∧ e.2.isPrototype = true ∧ f.isPrototype = false ∧
      (d.declare s i f).1 = d.map fun e => if e.2.name = f.name then (i, f) else e) := by
  unfold Declared.declare at h ⊢
  cases hfind : d.find? f.name with
  | none => exact .inl ⟨rfl, rfl⟩
  | some e =>
    obtain ⟨j, g⟩ := e
    simp only [hfind] at h ⊢
    have htwice : ¬ (!g.isPrototype && !f.isPrototype) = true := by
      intro hdef
      simp only [if_pos hdef] at h
      exact Settings.not_noErrors_note rfl h
    rw [if_neg htwice] at h ⊢
    have hsame : ¬ (!g.sameSignature f) = true := by
      intro hne
      simp only [if_pos hne] at h
      exact Settings.not_noErrors_note rfl h
    rw [if_neg hsame]
    right
    cases hf : f.isPrototype with
    | true => exact .inl ⟨_, rfl, rfl, rfl⟩
    | false => exact .inr ⟨_, rfl, by simpa [hf] using htwice, rfl, rfl⟩

theorem find?_declare_self (h : NoErrors (d.declare s i f).2) (hdef : f.isPrototype = false) :
    (d.declare s i f).1.find? f.name = some (i, f) := by
  obtain ⟨hnone, heq⟩ | ⟨e, -, hproto, -⟩ | ⟨e, hsome, -, -, heq⟩ := declare_cases h
  · rw [heq, find?_concat hnone, if_pos rfl]
  · simp [hdef] at hproto
  · rw [heq, find?_replace hsome, if_pos rfl]

/-- A definition that is found under a name stays, and no other function of that name is defined. -/
theorem find?_declare_of_definition (h : NoErrors (d.declare s i f).2) {name : String}
    (he : d.find? name = some e) (hdef : e.2.isPrototype = false) :
    (d.declare s i f).1.find? name = some e ∧ (f.name = name → f.isPrototype = true) := by
  obtain ⟨hnone, heq⟩ | ⟨e', -, hproto, heq⟩ | ⟨e', hsome, hproto', -, heq⟩ := declare_cases h
  · have hne : f.name ≠ name := by
      rintro rfl
      simp [he] at hnone
    rw [heq, find?_concat hnone, if_neg hne]
    exact ⟨he, fun hname => absurd hname hne⟩
  · rw [heq]
    exact ⟨he, fun _ => hproto⟩
  · have hne : f.name ≠ name := by
      rintro rfl
      rw [he] at hsome
      cases hsome
      simp [hdef] at hproto'
    rw [heq, find?_replace hsome, if_neg hne]
    exact ⟨he, fun hname => absurd hname hne⟩

theorem find?_declareAll_of_definition : ∀ {d : Declared} {i : Nat},
    NoErrors (d.declareAll s i fs).2 → ∀ {name : String} {e : Nat × Function},
      d.find? name = some e → e.2.isPrototype = false →
        (d.declareAll s i fs).1.find? name = some e ∧
          ∀ f ∈ fs, f.name = name → f.isPrototype = true := by
  induction fs with
  | nil => exact fun _ _ _ he _ => ⟨he, by simp⟩
  | cons f fs ih =>
    intro d i h name e he hdef
    simp only [Declared.declareAll, noErrors_append] at h ⊢
    obtain ⟨hfirst, hrest⟩ := h
    obtain ⟨he', hf⟩ := find?_declare_of_definition hfirst he hdef
    obtain ⟨hfind, hfs⟩ := ih hrest he' hdef
    refine ⟨hfind, ?_⟩
    intro g hg
    cases hg with
    | head => exact hf
    | tail _ htail => exact hfs g htail

/-- Every definition is found under its name in the end, and no two have the same name. -/
theorem definitions_declareAll : ∀ {d : Declared} {i : Nat},
    NoErrors (d.declareAll s i fs).2 →
      (∀ f ∈ Program.definitions fs, ∃ j, (d.declareAll s i fs).1.find? f.name = some (j, f)) ∧
        ((Program.definitions fs).map Function.name).Nodup := by
  induction fs with
  | nil => simp [Program.definitions]
  | cons f fs ih =>
    intro d i h
    simp only [Declared.declareAll, noErrors_append] at h ⊢
    obtain ⟨hfirst, hrest⟩ := h
    obtain ⟨hfind, hnodup⟩ := ih hrest
    cases hf : f.isPrototype with
    | true =>
      rw [Program.definitions_cons_prototype hf]
      exact ⟨hfind, hnodup⟩
    | false =>
      have hself := find?_declare_self hfirst hf
      obtain ⟨hfound, hothers⟩ := find?_declareAll_of_definition hrest hself hf
      rw [Program.definitions_cons hf]
      refine ⟨?_, ?_⟩
      · intro g hg
        cases hg with
        | head => exact ⟨i, hfound⟩
        | tail _ htail => exact hfind g htail
      · rw [List.map_cons, List.nodup_cons]
        refine ⟨?_, hnodup⟩
        intro hmem
        obtain ⟨g, hg, hname⟩ := List.mem_map.1 hmem
        have ⟨hmem, hdef⟩ := Program.mem_definitions.1 hg
        have hproto := hothers g hmem hname
        simp [hdef] at hproto

/-- Every function that stands for a name is one of the program. -/
theorem of_mem_declareAll {P : Function → Prop} (hfs : ∀ f ∈ fs, P f) :
    ∀ {d : Declared} {i : Nat}, (∀ e ∈ d, P e.2) → ∀ e ∈ (d.declareAll s i fs).1, P e.2 := by
  induction fs with
  | nil => exact fun hd => hd
  | cons f fs ih =>
    intro d i hd
    refine ih (fun g hg => hfs g (List.mem_cons_of_mem _ hg)) ?_
    have hf := hfs f List.mem_cons_self
    have hreplaced : ∀ e ∈ d.map fun e => if e.2.name = f.name then (i, f) else e, P e.2 := by
      intro e he
      obtain ⟨e, hmem, rfl⟩ := List.mem_map.1 he
      split
      · exact hf
      · exact hd e hmem
    split
    · rw [List.forall_mem_append, List.forall_mem_singleton]
      exact ⟨hd, hf⟩
    · split
      · exact hd
      · split
        · exact hd
        · split
          · exact hd
          · exact hreplaced

end Declared

/-- In an accepted program no two definitions have the same name, and calls are checked against
    definitions. -/
theorem Program.definitions_of_accepted {s : Settings} {p : Program}
    (h : (p.check s).accepted = true) :
    (∀ f ∈ p.definitions, ∃ i, (p.declare s).1.declared.find? f.name = some (i, f)) ∧
      (p.definitions.map Function.name).Nodup := by
  have hrs := ProgramCheck.noErrors_of_accepted h
  exact Declared.definitions_declareAll (noErrors_append.1 hrs).1

/-! ## Definitions after checking -/

theorem Function.Elab.name_eq {f f' : Function} (h : Function.Elab c f f') :
    f'.name = f.name := by
  cases h <;> rfl

theorem Function.Elab.isPrototype_eq {f f' : Function}
    (h : Function.Elab c f f') : f'.isPrototype = f.isPrototype := by
  cases h <;> rfl

/-- The definitions of a checked program are what the rules make of its definitions. -/
theorem Program.elaborated_definitions {p p' : Program} (h : List.Forall₂ (Function.Elab c) p p') :
    List.Forall₂ (Function.Elab c) p.definitions p'.definitions :=
  List.rel_filter (fun f f' hf => by simp [hf.isPrototype_eq]) h

theorem exists_mem_of_forall₂ {α β : Type} {R : α → β → Prop} {as : List α} {bs : List β}
    (h : List.Forall₂ R as bs) {b : β} (hb : b ∈ bs) : ∃ a ∈ as, R a b := by
  induction h with
  | nil => cases hb
  | @cons a b' as bs hab _ ih =>
    cases hb with
    | head => exact ⟨a, by simp, hab⟩
    | tail _ htail =>
      obtain ⟨a', ha', hab'⟩ := ih htail
      exact ⟨a', by simp [ha'], hab'⟩

theorem Program.nodup_names_of_elaborated {p p' : Program}
    (h : List.Forall₂ (Function.Elab c) p p') (hnames : (p.definitions.map Function.name).Nodup) :
    (p'.definitions.map Function.name).Nodup := by
  have heq : ∀ {fs fs' : List Function}, List.Forall₂ (Function.Elab c) fs fs' →
      fs'.map Function.name = fs.map Function.name := by
    intro fs fs' hall
    induction hall with
    | nil => rfl
    | cons hf _ ih => rw [List.map_cons, List.map_cons, ih, hf.name_eq]
  rwa [heq (Program.elaborated_definitions h)]

end MiniCompiler
