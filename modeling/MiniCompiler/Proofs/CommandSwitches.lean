import MiniCompiler.Command
import MiniCompiler.Proofs.SwitchReading

/-!
# Switches of the command

What the arguments of the command ask of a warning or a feature can be said by how they are spelled: the
flag that switches it off comes first, then the flag that names it, then the flag for all warnings, and
the last argument on a flag counts. The settings go by whether a flag still has the state in which it was
offered, so a flag that repeats that state is overlooked: one that keeps a warning off does not hold
against the flag for all warnings.

Main statement: `Command.switchedBy_asked`.
-/

namespace MiniCompiler

open Arguments (Flag FlagSet stateSaid)

/-! ## From flags to settings -/

namespace Settings

variable {s : Settings}

theorem foldl_keeps {ι β : Type} {step : Settings → ι → Settings} (view : Settings → β)
    (h : ∀ s i, view (step s i) = view s) (l : List ι) : view (l.foldl step s) = view s := by
  induction l generalizing s with
  | nil => rfl
  | cons i l ih => rw [List.foldl_cons, ih, h]

/-- If every step does what is asked of one switch, going by what was offered, a list of steps does it
    for every switch in the list. -/
theorem foldl_asked {ι : Type} [DecidableEq ι] {step : Settings → ι → Settings}
    (view : Settings → ι → Bool) (asked : Option Switches → ι → Option Bool)
    (hoffered : ∀ s i, (step s i).offered = s.offered)
    (hview : ∀ s i j, view (step s i) j =
      if j = i then (asked s.offered i).getD (view s i) else view s j)
    (l : List ι) (j : ι) :
    view (l.foldl step s) j = if j ∈ l then (asked s.offered j).getD (view s j) else view s j := by
  induction l generalizing s with
  | nil => rfl
  | cons i l ih =>
    rw [List.foldl_cons, ih, hoffered, hview]
    by_cases hij : j = i
    · subst hij
      rw [if_pos rfl, if_pos List.mem_cons_self]
      cases asked s.offered j <;> simp
    · have hmem : j ∈ i :: l ↔ j ∈ l := by rw [List.mem_cons, or_iff_right hij]
      simp only [if_neg hij, hmem]

section Step

variable (s) (w : Warning) (f : Feature) (t : Toggle)

@[simp]
theorem offered_applyWarning : (s.applyWarning w t).offered = s.offered := by
  unfold applyWarning
  split <;> rfl

@[simp]
theorem feature_applyWarning : (s.applyWarning w t).switches.feature = s.switches.feature := by
  unfold applyWarning
  split <;> rfl

theorem warning_applyWarning (v : Warning) :
    (s.applyWarning w t).switches.warning v =
      if v = w then (t.request? (s.offered.map (·.warning w))).getD (s.switches.warning w)
      else s.switches.warning v := by
  unfold applyWarning
  by_cases heq : v = w
  · subst heq
    rw [if_pos rfl]
    split
    next on hasked => simp [setWarning, hasked]
    next hasked => rw [hasked, Option.getD_none]
  · rw [if_neg heq]
    split
    next => simp only [setWarning, if_neg heq]
    next => rfl

@[simp]
theorem offered_applyFeature : (s.applyFeature f t).offered = s.offered := by
  unfold applyFeature
  split <;> rfl

@[simp]
theorem warning_applyFeature : (s.applyFeature f t).switches.warning = s.switches.warning := by
  unfold applyFeature
  split <;> rfl

theorem feature_applyFeature (g : Feature) :
    (s.applyFeature f t).switches.feature g =
      if g = f then (t.request? (s.offered.map (·.feature f))).getD (s.switches.feature f)
      else s.switches.feature g := by
  unfold applyFeature
  by_cases heq : g = f
  · subst heq
    rw [if_pos rfl]
    split
    next on hasked => simp [setFeature, hasked]
    next hasked => rw [hasked, Option.getD_none]
  · rw [if_neg heq]
    split
    next => simp only [setFeature, if_neg heq]
    next => rfl

end Step

section Flags

variable (s) (flags : FlagSet)

theorem applyFlags_eq :
    s.applyFlags flags =
      Feature.all.foldl (fun s' f => s'.applyFeature f (.ofEntry flags (s.featureEntry f)))
        (Warning.all.foldl (fun s' w => s'.applyWarning w (.ofEntry flags (s.warningEntry w))) s) :=
  rfl

/-- The settings have what the flags of a warning ask for. -/
theorem warning_applyFlags (w : Warning) :
    (s.applyFlags flags).switches.warning w =
      ((Toggle.ofEntry flags (s.warningEntry w)).request? (s.offered.map (·.warning w))).getD
        (s.switches.warning w) := by
  rw [applyFlags_eq, foldl_keeps (·.switches.warning) (by simp),
    foldl_asked (·.switches.warning)
      (fun offered w =>
        (Toggle.ofEntry flags (s.warningEntry w)).request? (offered.map (·.warning w)))
      (by simp) (fun _ _ _ => warning_applyWarning ..), if_pos w.mem_all]

theorem feature_applyFlags (f : Feature) :
    (s.applyFlags flags).switches.feature f =
      ((Toggle.ofEntry flags (s.featureEntry f)).request? (s.offered.map (·.feature f))).getD
        (s.switches.feature f) := by
  rw [applyFlags_eq,
    foldl_asked (·.switches.feature)
      (fun offered f =>
        (Toggle.ofEntry flags (s.featureEntry f)).request? (offered.map (·.feature f)))
      (by simp) (fun _ _ _ => feature_applyFeature ..), if_pos f.mem_all,
    foldl_keeps (·.offered) (by simp), foldl_keeps (·.switches.feature) (by simp)]

end Flags

end Settings

/-! ## What is asked -/

namespace Command

/-- The flags that are read: those of the command, and the one for help. -/
def allFlags : FlagSet := application.flags.add Arguments.helpFlag

variable (arguments : List String)

/-- The last word of the arguments on the switch of a name. -/
def said (name : String) : Option Bool := lastWord (stateSaid name) (allFlags.spoken arguments)

/-- What the arguments ask of something that the switch `on` turns on and the switch `off` turns off. -/
def pairAsked (on off : String) (otherwise : Bool) : Bool :=
  if said arguments off = some true then false else (said arguments on).getD otherwise

/-- The state of a warning of which the arguments do not speak by name. -/
def unnamed (w : Warning) : Bool :=
  if said arguments "Wall" = some true ∧ w ≠ .pedantic then true else Switches.standard.warning w

/-- What the arguments ask of a warning. -/
def warningAsked (w : Warning) : Bool :=
  pairAsked arguments ("W" ++ w.name) ("Wno-" ++ w.name) (unnamed arguments w)

/-- What the arguments ask of a feature. -/
def featureAsked (f : Feature) : Bool :=
  pairAsked arguments ("F" ++ f.name) ("Fno-" ++ f.name) (Switches.standard.feature f)

/-- A warning that is off by default, that the arguments keep off by its name, and that is switched on
    with all others in spite of it. -/
def Overruled (w : Warning) : Prop :=
  w ≠ .pedantic ∧ Switches.standard.warning w = false ∧ said arguments "Wall" = some true ∧
    said arguments ("Wno-" ++ w.name) ≠ some true ∧ said arguments ("W" ++ w.name) = some false

instance (w : Warning) : Decidable (Overruled arguments w) := inferInstanceAs (Decidable (_ ∧ _))

/-! ## What is read -/

theorem wellNamed_allFlags : allFlags.WellNamed :=
  ⟨by decide +kernel, by decide +kernel, by decide +kernel, by decide +kernel, by decide +kernel⟩

theorem ownShorts_allFlags : allFlags.OwnShorts := by decide +kernel

theorem clash?_helpFlag : application.flags.clash? Arguments.helpFlag = none := by decide +kernel

/-- A switch of the command without a short name, and its state before any argument. -/
def Offers (name : String) (on : Bool) : Prop :=
  ∃ f ∈ allFlags.flags, f.name = name ∧ f.short = "" ∧ f.value = .switch on

instance (name : String) (on : Bool) : Decidable (Offers name on) :=
  inferInstanceAs (Decidable (∃ f ∈ _, _))

theorem offers_all : Offers "Wall" false := by decide +kernel

theorem offers_warning (w : Warning) :
    Offers ("W" ++ w.name) (Switches.standard.warning w) ∧ Offers ("Wno-" ++ w.name) false := by
  cases w <;> decide +kernel

theorem offers_feature (f : Feature) :
    Offers ("F" ++ f.name) (Switches.standard.feature f) ∧ Offers ("Fno-" ++ f.name) false := by
  cases f <;> decide +kernel

section Read

variable {arguments} (hok : (allFlags.read arguments).error = none)

include hok

theorem value?_read {name : String} {on : Bool} (h : Offers name on) :
    (allFlags.read arguments).flags.value? name = some (.switch ((said arguments name).getD on)) := by
  obtain ⟨f, hf, rfl, hshort, hon⟩ := h
  have hsame : allFlags.withValues Flag.value = allFlags := FlagSet.withValues_value _
  have hread := wellNamed_allFlags.value?_read ownShorts_allFlags hf hshort (fun _ _ => rfl) hon
    (hsame.symm ▸ hok)
  rwa [hsame] at hread

theorem stateOf_read {name : String} {on : Bool} (h : Offers name on) :
    Toggle.stateOf (allFlags.read arguments).flags name = some ((said arguments name).getD on) := by
  rw [Toggle.stateOf, value?_read hok h]

theorem isOn_all :
    (allFlags.read arguments).flags.isOn "Wall" = decide (said arguments "Wall" = some true) := by
  rw [FlagSet.isOn, value?_read hok offers_all]
  rcases said arguments "Wall" with - | - | - <;> rfl

/-- A pair of flags has the effect that is asked for, unless the one that switches on repeats its state
    from before and something else has changed that in the meantime. -/
theorem request?_eq_pairAsked_iff {on off : String} {standard : Bool}
    (h : Offers on standard ∧ Offers off false) (otherwise : Bool) :
    (Toggle.request? ⟨Toggle.stateOf (allFlags.read arguments).flags on,
        Toggle.stateOf (allFlags.read arguments).flags off⟩ (some standard)).getD otherwise =
      pairAsked arguments on off otherwise ↔
    ¬ (said arguments off ≠ some true ∧ said arguments on = some standard ∧ otherwise ≠ standard) := by
  rw [stateOf_read hok h.1, stateOf_read hok h.2, pairAsked]
  clear h
  cases said arguments off <;> cases said arguments on <;> grind [Toggle.request?]

/-- Before the flags of single warnings and features are looked at. -/
theorem exists_switchedBy_eq :
    ∃ s : Settings, switchedBy (allFlags.read arguments).flags =
        s.applyFlags (allFlags.read arguments).flags ∧
      s.offered = some .standard ∧ (∀ w, s.switches.warning w = unnamed arguments w) ∧
      s.switches.feature = Switches.standard.feature := by
  unfold switchedBy unnamed
  rw [isOn_all hok]
  by_cases hall : said arguments "Wall" = some true
  · refine ⟨offered.1.applyText "-Wall", by rw [decide_eq_true hall, if_pos rfl], rfl, ?_, rfl⟩
    intro w
    cases w <;> simp only [hall] <;> rfl
  · refine ⟨offered.1, by rw [decide_eq_false hall]; rfl, rfl, ?_, rfl⟩
    intro w
    simp only [hall, false_and, if_false]
    rfl

theorem warning_switchedBy_iff (w : Warning) :
    (switchedBy (allFlags.read arguments).flags).switches.warning w = warningAsked arguments w ↔
      ¬ Overruled arguments w := by
  obtain ⟨s, hs, hoffered, hwarning, -⟩ := exists_switchedBy_eq hok
  have hentry : Toggle.ofEntry (allFlags.read arguments).flags (s.warningEntry w) =
      ⟨Toggle.stateOf (allFlags.read arguments).flags ("W" ++ w.name),
        Toggle.stateOf (allFlags.read arguments).flags ("Wno-" ++ w.name)⟩ := rfl
  rw [hs, s.warning_applyFlags, hoffered, hwarning, hentry, warningAsked]
  refine (request?_eq_pairAsked_iff hok (offers_warning w) _).trans ?_
  -- before its own flags are looked at, only the flag for all warnings takes a warning off its default
  rw [not_iff_not, Overruled, unnamed]
  grind

theorem feature_switchedBy (f : Feature) :
    (switchedBy (allFlags.read arguments).flags).switches.feature f = featureAsked arguments f := by
  obtain ⟨s, hs, hoffered, -, hfeature⟩ := exists_switchedBy_eq hok
  have hentry : Toggle.ofEntry (allFlags.read arguments).flags (s.featureEntry f) =
      ⟨Toggle.stateOf (allFlags.read arguments).flags ("F" ++ f.name),
        Toggle.stateOf (allFlags.read arguments).flags ("Fno-" ++ f.name)⟩ := rfl
  rw [hs, s.feature_applyFlags, hoffered, hfeature, hentry, featureAsked]
  exact (request?_eq_pairAsked_iff hok (offers_feature f) _).2 fun hnot => hnot.2.2 rfl

end Read

theorem Overruled.eq_shadow {w : Warning} (h : Overruled arguments w) : w = .shadow := by
  cases w with
  | shadow => rfl
  | pedantic => exact absurd rfl h.1
  | unreachableCode | emptyBody | extra => cases h.2.1

theorem switches_of_jobOf {host : Host} {flags : FlagSet} {inputs : List String} {job : Job}
    (h : jobOf host flags inputs = .build job) :
    job.settings.switches = (switchedBy flags).switches := by
  unfold jobOf Settings.select at h
  split at h
  next => cases h
  next =>
    cases htarget : Target.ofName? (flags.text "target") with
    | none =>
      rw [htarget] at h
      cases h
    | some t =>
      rw [htarget] at h
      cases h
      rfl

/-- A job has the switches that the flags ask for. -/
theorem switches_of_request {host : Host} {arguments : List String} {job : Job}
    (hok : (allFlags.read arguments).error = none) (h : request host arguments = .build job) :
    job.settings.switches = (switchedBy (allFlags.read arguments).flags).switches := by
  have hflags : application.flags.add Arguments.helpFlag = allFlags := rfl
  simp only [request, Arguments.Application.start, clash?_helpFlag, hflags, hok] at h
  by_cases hhelp : (allFlags.read arguments).flags.isOn Arguments.helpFlag.name = true
  · rw [if_pos hhelp] at h
    generalize Arguments.Application.help _ _ = page at h
    cases page <;> cases h
  · rw [if_neg hhelp] at h
    exact switches_of_jobOf h

/-- If all arguments can be read, every feature ends as they ask, and so does every warning, unless it
    is overruled. Only `shadow` can be. A job that comes of the arguments has these switches. -/
theorem switchedBy_asked (arguments : List String) (hok : (allFlags.read arguments).error = none) :
    (∀ w, (switchedBy (allFlags.read arguments).flags).switches.warning w = warningAsked arguments w ↔
      ¬ Overruled arguments w) ∧
    (∀ w, Overruled arguments w → w = .shadow) ∧
    (∀ f, (switchedBy (allFlags.read arguments).flags).switches.feature f =
      featureAsked arguments f) ∧
    ∀ host job, request host arguments = .build job →
      job.settings.switches = (switchedBy (allFlags.read arguments).flags).switches :=
  ⟨warning_switchedBy_iff hok, fun _ h => h.eq_shadow, feature_switchedBy hok,
    fun _ _ h => switches_of_request hok h⟩

/-- Switches in many spellings, one of them as the value of another flag and one behind the double
    dash. -/
def spelledOut : List String :=
  ["-Wno-extra", "-Wall", "--Wpedantic=1", "-Wempty-body=F", "-o", "-Wno-shadow", "-Wno-extra=",
    "--Wno-extra=0", "-Wshadow", "-oWshadow=f", "-Fno-continue", "-", "-Fcontinue=t",
    "--Wpedantic=False", "--", "-Fno-by-ref"]

theorem switchedBy_asked_spelledOut :
    (allFlags.read spelledOut).error = none ∧
    (∀ w, (switchedBy (allFlags.read spelledOut).flags).switches.warning w =
      warningAsked spelledOut w) ∧
    Warning.all.map (warningAsked spelledOut) = [true, true, false, true, false] ∧
    (∀ f, (switchedBy (allFlags.read spelledOut).flags).switches.feature f =
      featureAsked spelledOut f) ∧
    Feature.all.map (featureAsked spelledOut) = [true, true, false, true] := by
  have hok : (allFlags.read spelledOut).error = none := by decide +kernel
  obtain ⟨hwarning, hshadow, hfeature, -⟩ := switchedBy_asked spelledOut hok
  have hnot : ¬ Overruled spelledOut .shadow := by decide +kernel
  refine ⟨hok, fun w => (hwarning w).2 fun h => ?_, by decide +kernel, hfeature, by decide +kernel⟩
  cases hshadow w h
  exact hnot h

/-- All warnings, with one of them kept off. -/
def keptOff : List String := ["-S", "-o", "-", "-Wall", "-Wshadow=false", "a.mini"]

theorem shadow_keptOff :
    (allFlags.read keptOff).error = none ∧ warningAsked keptOff .shadow = false ∧
    (switchedBy (allFlags.read keptOff).flags).switches.warning .shadow = true := by
  decide +kernel

end Command
end MiniCompiler
