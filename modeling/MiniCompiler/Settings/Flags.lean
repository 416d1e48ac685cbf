import MiniCompiler.Arguments.Flag
import MiniCompiler.Settings

/-!
# Switches on a command line

Every warning and every feature is offered as a pair of flags, one that switches it on and one that
switches it off. After the arguments have been read, what the flags say is carried over into the
settings: a flag that still has the state of the time when it was offered says nothing, and the flag
that switches off has the last word.
-/

namespace MiniCompiler

open Arguments (FlagSet Group GroupEntry)

/-- The states of a pair of flags. A flag that is missing has none. -/
structure Toggle where
  enabled : Option Bool := none
  disabled : Option Bool := none
  deriving DecidableEq, Repr

namespace Toggle

/-- The switch state of a flag. -/
def stateOf (flags : FlagSet) (name : String) : Option Bool :=
  match flags.value? name with
  | some (.switch on) => some on
  | _ => none

/-- The states of the flags of an entry. -/
def ofEntry (flags : FlagSet) (e : GroupEntry) : Toggle :=
  ⟨stateOf flags e.enableName, stateOf flags e.disableName⟩

/-- The state that a pair of flags asks for, where `offered` is the state at the time of the
    offer. -/
def request? (t : Toggle) (offered : Option Bool) : Option Bool :=
  if t.disabled = some true then some false
  else if offered.isSome && t.enabled != offered then t.enabled
  else none

end Toggle

namespace Settings

def warningEntry (s : Settings) (w : Warning) : GroupEntry :=
  ⟨w.name, "W", w.description, some (s.switches.warning w), some false⟩

def featureEntry (s : Settings) (f : Feature) : GroupEntry :=
  ⟨f.name, "F", f.description, some (s.switches.feature f), some false⟩

def warningGroup (s : Settings) : Group where
  name := "Warning Flags"
  description := "Enable or disable specific warnings"
  kind := "warning flag"
  header := "Available Warning Flags:"
  entries := Warning.all.map s.warningEntry

def featureGroup (s : Settings) : Group where
  name := "Feature Flags"
  description := "Enable or disable specific features"
  kind := "feature flag"
  header := "Available feature flags:"
  entries := Feature.all.map s.featureEntry

/-- Adds the flags for warnings and features to a set, and notes the switches as they are. -/
def offer (s : Settings) (flags : FlagSet) : Settings × FlagSet :=
  ({ s with offered := some s.switches }, (flags.addGroup s.warningGroup).addGroup s.featureGroup)

/-- Does what the flags of a warning ask for. -/
def applyWarning (s : Settings) (w : Warning) (t : Toggle) : Settings :=
  match t.request? (s.offered.map (·.warning w)) with
  | some on => s.setWarning w on
  | none => s

/-- Does what the flags of a feature ask for. -/
def applyFeature (s : Settings) (f : Feature) (t : Toggle) : Settings :=
  match t.request? (s.offered.map (·.feature f)) with
  | some on => s.setFeature f on
  | none => s

/-- Carries over what pairs of flags ask for. The pairs stand in the order of the warnings and of
    the features; those beyond the last are ignored. -/
def applyToggles (s : Settings) (warnings features : List Toggle) : Settings :=
  let s := (Warning.all.zip warnings).foldl (fun s (w, t) => s.applyWarning w t) s
  (Feature.all.zip features).foldl (fun s (f, t) => s.applyFeature f t) s

/-- Carries over what the flags of a set ask for. -/
def applyFlags (s : Settings) (flags : FlagSet) : Settings :=
  s.applyToggles (Warning.all.map fun w => .ofEntry flags (s.warningEntry w))
    (Feature.all.map fun f => .ofEntry flags (s.featureEntry f))

end Settings

end MiniCompiler
