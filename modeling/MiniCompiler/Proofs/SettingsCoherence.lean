import MiniCompiler.Proofs.Labels
import MiniCompiler.Settings.Flags

/-!
# Settings that describe one system

Settings are made by changes of the standard ones. Every change but a selection leaves the system and
the machine alone. A selection notes the system before it looks for the machine, so one that is refused
is half made: the note at the end of the assembly follows the system that was last asked for, and the
beginning of symbols the one that was last selected with a supported machine.

Main statement: `Settings.coherent_changed_iff`.
-/

namespace MiniCompiler.Settings

/-! ## Changes -/

/-- A change of settings. Features and warnings go by number. -/
inductive Change where
  | select (system processor name : String)
  | setFeature (number : Int) (on : Bool)
  | setWarning (number : Int) (on : Bool)
  | directives (text : String)
  | offer (flags : Arguments.FlagSet)
  | toggles (warnings features : List Toggle)

namespace Change

/-- The system that is asked for. -/
def asks? : Change → Option String
  | .select system _ _ => some system
  | _ => none

/-- The system that is asked for with a supported machine. -/
def selects? : Change → Option String
  | .select system _ name => (Target.ofName? name).map fun _ => system
  | _ => none

end Change

/-- Makes a change. One that is refused is made as far as it goes. -/
def change (s : Settings) : Change → Settings
  | .select system processor name => (s.select system processor name).1
  | .setFeature number on => ((Feature.ofNumber? number).map (s.setFeature · on)).getD s
  | .setWarning number on => ((Warning.ofNumber? number).map (s.setWarning · on)).getD s
  | .directives text => s.applyText text
  | .offer flags => (s.offer flags).1
  | .toggles warnings features => s.applyToggles warnings features

/-- The settings after changes of the standard ones. -/
def changed (changes : List Change) : Settings := changes.foldl change {}

/-! ## Switches -/

/-- The settings but for switches. -/
def machine (s : Settings) : Settings := { s with switches := .standard, offered := none }

theorem machine_foldl {α : Type} {f : Settings → α → Settings}
    (h : ∀ s a, (f s a).machine = s.machine) (l : List α) (s : Settings) :
    (l.foldl f s).machine = s.machine := by
  induction l generalizing s with
  | nil => rfl
  | cons a l ih => rw [List.foldl_cons, ih, h]

theorem machine_apply (s : Settings) (d : Directive) : (s.apply d).machine = s.machine := by
  cases d with
  | everyWarning => rfl
  | warning name =>
    rw [apply]
    split <;> rfl
  | feature name =>
    rw [apply]
    split <;> rfl

theorem machine_applyWarning (s : Settings) (w : Warning) (t : Toggle) :
    (s.applyWarning w t).machine = s.machine := by
  unfold applyWarning
  split <;> rfl

theorem machine_applyFeature (s : Settings) (f : Feature) (t : Toggle) :
    (s.applyFeature f t).machine = s.machine := by
  unfold applyFeature
  split <;> rfl

/-- Only a selection changes more than switches. -/
theorem machine_change (s : Settings) {c : Change} (h : c.asks? = none) :
    (s.change c).machine = s.machine := by
  cases c with
  | select => cases h
  | setFeature number on =>
    rw [change]
    cases Feature.ofNumber? number <;> rfl
  | setWarning number on =>
    rw [change]
    cases Warning.ofNumber? number <;> rfl
  | directives text => exact machine_foldl machine_apply _ _
  | offer => rfl
  | toggles warnings features =>
    refine (machine_foldl ?_ _ _).trans (machine_foldl ?_ _ _)
    · exact fun s p => s.machine_applyFeature p.1 p.2
    · exact fun s p => s.machine_applyWarning p.1 p.2

/-! ## Runs -/

/-- The last system that changes ask for or select, or none at all. -/
def lastOf (f : Change → Option String) (changes : List Change) : String :=
  (changes.filterMap f).getLastD ""

theorem lastOf_none {f : Change → Option String} {c : Change} (h : f c = none)
    (changes : List Change) : lastOf f (changes ++ [c]) = lastOf f changes := by
  simp [lastOf, h]

theorem lastOf_some {f : Change → Option String} {c : Change} {system : String}
    (h : f c = some system) (changes : List Change) : lastOf f (changes ++ [c]) = system := by
  simp [lastOf, h]

/-- What changes have made of settings. -/
structure Follows (changes : List Change) (s : Settings) : Prop where
  target : s.target ∈ Target.supported
  wordSize : s.wordSize = s.target.wordSize
  system : s.system = lastOf Change.asks? changes
  symbolStart : s.symbolStart = symbolStartOn (lastOf Change.selects? changes)

variable {changes : List Change} {s : Settings}

theorem Follows.of_machine {s' : Settings} (h : Follows changes s) (hs : s'.machine = s.machine) :
    Follows changes s' := by
  obtain ⟨switches, system, processor, target, wordSize, symbolStart, offered⟩ := s'
  cases hs
  exact ⟨h.target, h.wordSize, h.system, h.symbolStart⟩

theorem Follows.select (h : Follows changes s) (system processor name : String) :
    Follows (changes ++ [.select system processor name]) (s.select system processor name).1 := by
  have hasks := lastOf_some (f := Change.asks?) (c := .select system processor name) rfl changes
  unfold Settings.select
  cases ht : Target.ofName? name with
  | none =>
    have hselects : (Change.select system processor name).selects? = none := by
      simp [Change.selects?, ht]
    exact ⟨h.target, h.wordSize, hasks.symm, lastOf_none hselects changes ▸ h.symbolStart⟩
  | some t =>
    have hselects : (Change.select system processor name).selects? = some system := by
      simp [Change.selects?, ht]
    exact ⟨Target.mem_supported_of_ofName? ht, rfl, hasks.symm,
      by rw [lastOf_some hselects]⟩

theorem Follows.change (h : Follows changes s) (c : Change) :
    Follows (changes ++ [c]) (s.change c) := by
  cases hc : c.asks? with
  | none =>
    have hselects : c.selects? = none := by
      cases c with
      | select => cases hc
      | _ => rfl
    have hkept := h.of_machine (s.machine_change hc)
    exact ⟨hkept.target, hkept.wordSize, by rw [lastOf_none hc, hkept.system],
      by rw [lastOf_none hselects, hkept.symbolStart]⟩
  | some system =>
    cases c with
    | select system processor name => exact h.select system processor name
    | _ => cases hc

theorem Follows.foldl (h : Follows changes s) (more : List Change) :
    Follows (changes ++ more) (more.foldl Settings.change s) := by
  induction more generalizing changes s with
  | nil => rwa [List.append_nil]
  | cons c more ih =>
    rw [List.append_cons]
    exact ih (h.change c)

theorem follows_changed (changes : List Change) : Follows changes (changed changes) := by
  have hstandard : Follows [] {} := ⟨by decide, rfl, rfl, rfl⟩
  exact hstandard.foldl changes

/-! ## Coherence -/

theorem symbolStartOn_eq_iff {system : String} :
    symbolStartOn system = "_" ↔ system = "darwin" := by
  unfold symbolStartOn
  split <;> simp_all

theorem footer_eq_nil_iff : s.footer = [] ↔ s.system = "darwin" := by
  unfold footer
  split <;> simp_all

/-- Do settings describe one supported machine and one system? Both the beginning of symbols and the end
    of the assembly are told by the system. -/
structure Coherent (s : Settings) : Prop where
  target : s.target ∈ Target.supported
  wordSize : s.wordSize = s.target.wordSize
  symbolStart : s.symbolStart = "_" ↔ s.system = "darwin"
  footer : s.footer = [] ↔ s.symbolStart = "_"

theorem Follows.coherent_iff (h : Follows changes s) : s.Coherent ↔
    (lastOf Change.selects? changes = "darwin" ↔ lastOf Change.asks? changes = "darwin") := by
  have hstart : (s.symbolStart = "_" ↔ s.system = "darwin") ↔
      (lastOf Change.selects? changes = "darwin" ↔ lastOf Change.asks? changes = "darwin") := by
    rw [h.symbolStart, h.system, symbolStartOn_eq_iff]
  constructor
  · intro hs
    exact hstart.1 hs.symbolStart
  · intro hlast
    have hsymbols := hstart.2 hlast
    exact ⟨h.target, h.wordSize, hsymbols, footer_eq_nil_iff.trans hsymbols.symm⟩

/-- A selection that is refused leaves settings as they were if it asks for the system and the processor
    that they have. -/
theorem select_refused_iff (s : Settings) (system processor name : String) :
    ((s.select system processor name).2 ≠ none → (s.select system processor name).1 = s) ↔
      (Target.ofName? name = none → system = s.system ∧ processor = s.processor) := by
  unfold select
  cases Target.ofName? name with
  | some t => simp
  | none =>
    simp only [ne_eq, reduceCtorEq, not_false_eq_true, forall_const]
    constructor
    · intro h
      exact ⟨congrArg Settings.system h, congrArg Settings.processor h⟩
    · rintro ⟨rfl, rfl⟩
      rfl

/-- After any changes the settings are for a supported machine. They describe one system just if the
    last one that was asked for and the last one that was selected are both Darwin or both not, which
    is so if no selection was refused. A selection that is refused changes nothing just if it asks for
    the system and the processor that the settings have. -/
theorem coherent_changed_iff (changes : List Change) (system processor name : String) :
    (changed changes).target ∈ Target.supported ∧
    (changed changes).wordSize = (changed changes).target.wordSize ∧
    ((changed changes).Coherent ↔
      (lastOf Change.selects? changes = "darwin" ↔ lastOf Change.asks? changes = "darwin")) ∧
    ((∀ c ∈ changes, c.selects? = c.asks?) → (changed changes).Coherent) ∧
    ((((changed changes).select system processor name).2 ≠ none →
        ((changed changes).select system processor name).1 = changed changes) ↔
      (Target.ofName? name = none →
        system = (changed changes).system ∧ processor = (changed changes).processor)) := by
  have h := follows_changed changes
  refine ⟨h.target, h.wordSize, h.coherent_iff, fun hgranted => ?_, select_refused_iff _ _ _ _⟩
  rw [h.coherent_iff, lastOf, lastOf, List.filterMap_congr hgranted]

/-- After a selection of Darwin that is refused, the assembly ends as it does on Darwin, but symbols
    do not begin so. -/
theorem not_coherent_refused :
    (({} : Settings).select "darwin" "amd64" "sparc").2 = some (.unsupportedTarget "sparc") ∧
    (changed [.select "darwin" "amd64" "sparc"]).footer = [] ∧
    (changed [.select "darwin" "amd64" "sparc"]).symbolStart = "" ∧
    ¬ (changed [.select "darwin" "amd64" "sparc"]).Coherent := by
  refine ⟨rfl, rfl, rfl, fun h => ?_⟩
  have hstart : "" = "_" := h.symbolStart.2 rfl
  exact absurd hstart (by decide)

end MiniCompiler.Settings
