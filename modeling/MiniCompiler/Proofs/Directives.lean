import MiniCompiler.Settings

/-!
# Directives and the last word

The directives of a text are applied one after the other, those on all warnings before all others.
What comes of them is said by `lastWord`: every switch is as the last field says that names it, and a
field that names it beats those that speak of all warnings wherever they stand. `saidOf` spells out
which fields those are.

Main statement: `Settings.applyText_lastWord`.
-/

namespace MiniCompiler

/-! ## Last words -/

section LastWord

variable {α : Type}

/-- The last word of a list on something on which not every item has a say. -/
def lastWord (voice : α → Option Bool) (l : List α) : Option Bool := (l.filterMap voice).getLast?

theorem lastWord_cons (voice : α → Option Bool) (a : α) (l : List α) :
    lastWord voice (a :: l) = (lastWord voice l).or (voice a) := by
  unfold lastWord
  cases h : voice a with
  | none => rw [List.filterMap_cons_none h, Option.or_none]
  | some b => rw [List.filterMap_cons_some h, ← List.singleton_append, List.getLast?_append]; rfl

theorem lastWord_eq_none {voice : α → Option Bool} {l : List α} (h : ∀ a ∈ l, voice a = none) :
    lastWord voice l = none := by
  rw [lastWord, List.filterMap_eq_nil_iff.2 h]
  rfl

/-- Items that have no say can be left out. -/
theorem lastWord_filter {voice : α → Option Bool} {p : α → Bool} {l : List α}
    (h : ∀ a ∈ l, p a = false → voice a = none) : lastWord voice (l.filter p) = lastWord voice l := by
  induction l with
  | nil => rfl
  | cons a l ih =>
    obtain ⟨ha, hl⟩ := List.forall_mem_cons.1 h
    rw [List.filter_cons, lastWord_cons, ← ih hl]
    split
    next => rw [lastWord_cons]
    next hp => rw [ha (by simpa using hp), Option.or_none]

end LastWord

/-! ## Fields -/

/-- What a field says of a name: `lead` and the name switch it on, with `no-` between them they switch
    it off. -/
def saidOf (lead name : String) (field : List Char) : Option Bool :=
  if field = lead.toList ++ name.toList then some true
  else if field = lead.toList ++ ("no-".toList ++ name.toList) then some false
  else none

namespace Directive

/-- The fields `-Wname`, `-Wno-name`, `-Fname` and `-Fno-name`, with any name. -/
def IsSwitch (field : List Char) : Prop := "-W".toList <+: field ∨ "-F".toList <+: field

instance (field : List Char) : Decidable (IsSwitch field) :=
  inferInstanceAs (Decidable (_ ∨ _))

/-- Does a field say something of a warning, of all warnings or of a feature? -/
def isNamed (field : List Char) : Bool :=
  (saidOf "-W" "all" field).isSome ||
    Warning.all.any (fun w => (saidOf "-W" w.name field).isSome) ||
    Feature.all.any fun f => (saidOf "-F" f.name field).isSome

end Directive

/-- A name that cannot be taken for the negation of another one. -/
def IsPlainName (name : String) : Prop := ¬ "no-".toList <+: name.toList

instance (name : String) : Decidable (IsPlainName name) := inferInstanceAs (Decidable (¬ _))

section Said

variable {lead name : String} {cs field : List Char}

theorem saidOf_negated (h : IsPlainName name) :
    saidOf lead name (lead.toList ++ ("no-".toList ++ cs)) =
      if cs = name.toList then some false else none := by
  have hne : "no-".toList ++ cs ≠ name.toList := fun heq => h ⟨cs, heq⟩
  simp only [saidOf, List.append_cancel_left_eq, if_neg hne]

theorem saidOf_plain (h : ¬ "no-".toList <+: cs) :
    saidOf lead name (lead.toList ++ cs) = if cs = name.toList then some true else none := by
  have hne : cs ≠ "no-".toList ++ name.toList := fun heq => h ⟨_, heq.symm⟩
  simp only [saidOf, List.append_cancel_left_eq, if_neg hne]

theorem saidOf_eq_none (h : ¬ lead.toList <+: field) :
    saidOf lead name field = none := by
  unfold saidOf
  rw [if_neg fun heq => h ⟨_, heq.symm⟩, if_neg fun heq => h ⟨_, heq.symm⟩]

end Said

theorem Warning.isPlainName (w : Warning) : IsPlainName w.name := by
  cases w <;> decide

theorem Feature.isPlainName (f : Feature) : IsPlainName f.name := by
  cases f <;> decide

theorem isPlainName_all : IsPlainName "all" := by decide

theorem Warning.name_ne_all (w : Warning) : w.name ≠ "all" := by
  cases w <;> decide

theorem Warning.mem_all (w : Warning) : w ∈ Warning.all := by
  cases w <;> decide

theorem Feature.mem_all (f : Feature) : f ∈ Feature.all := by
  cases f <;> decide

theorem Warning.ofName?_eq_some {name : String} {w : Warning} :
    Warning.ofName? name = some w ↔ w.name = name := by
  constructor
  · intro h
    simpa using List.find?_some h
  · rintro rfl
    cases w <;> rfl

theorem Feature.ofName?_eq_some {name : String} {f : Feature} :
    Feature.ofName? name = some f ↔ f.name = name := by
  constructor
  · intro h
    simpa using List.find?_some h
  · rintro rfl
    cases f <;> rfl

namespace Directive

/-- A field on warnings is read as it is spelled. -/
theorem ofField_warning (cs : List Char) :
    (∃ name, cs = "no-".toList ++ name ∧ ofField ("-W".toList ++ cs) = ofWarningName name false) ∨
    (¬ "no-".toList <+: cs ∧ ofField ("-W".toList ++ cs) = ofWarningName cs true) := by
  by_cases h : "no-".toList <+: cs
  · obtain ⟨name, rfl⟩ := h
    exact .inl ⟨name, rfl, rfl⟩
  · refine .inr ⟨h, ?_⟩
    change ofBody ('W' :: cs) = _
    rw [ofBody]
    exact fun name hname => h ⟨name, hname.symm⟩

theorem ofField_feature (cs : List Char) :
    (∃ name, cs = "no-".toList ++ name ∧
      ofField ("-F".toList ++ cs) = .feature (String.ofList name) false) ∨
    (¬ "no-".toList <+: cs ∧ ofField ("-F".toList ++ cs) = .feature (String.ofList cs) true) := by
  by_cases h : "no-".toList <+: cs
  · obtain ⟨name, rfl⟩ := h
    exact .inl ⟨name, rfl, rfl⟩
  · refine .inr ⟨h, ?_⟩
    change ofBody ('F' :: cs) = _
    rw [ofBody]
    exact fun name hname => h ⟨name, hname.symm⟩

theorem isBroad_eq (field : List Char) : isBroad field = (saidOf "-W" "all" field).isSome := by
  have hspell : isBroad field = (field == "-W".toList ++ "all".toList ||
      field == "-W".toList ++ ("no-".toList ++ "all".toList)) := rfl
  rw [hspell, saidOf]
  split
  next heq => rw [beq_iff_eq.2 heq, Bool.true_or, Option.isSome_some]
  next heq =>
    split
    next heq' => rw [beq_iff_eq.2 heq', Bool.or_true, Option.isSome_some]
    next heq' => rw [beq_eq_false_iff_ne.2 heq, beq_eq_false_iff_ne.2 heq', Bool.or_false,
        Option.isSome_none]

theorem saidOf_of_not_isBroad (h : isBroad field = false) :
    saidOf "-W" "all" field = none := by
  rw [isBroad_eq] at h
  exact Option.not_isSome_iff_eq_none.1 (by rw [h]; exact Bool.false_ne_true)

/-- Of all warnings and of a single one not the same field speaks. -/
theorem saidOf_of_isBroad (h : isBroad field = true) (w : Warning) :
    saidOf "-W" w.name field = none := by
  have hname : "all".toList ≠ w.name.toList := fun heq => w.name_ne_all (String.toList_inj.1 heq.symm)
  have hon : saidOf "-W" w.name ("-W".toList ++ "all".toList) = none := by
    rw [saidOf_plain isPlainName_all, if_neg hname]
  have hoff : saidOf "-W" w.name ("-W".toList ++ ("no-".toList ++ "all".toList)) = none := by
    rw [saidOf_negated w.isPlainName, if_neg hname]
  rw [isBroad, Bool.or_eq_true, beq_iff_eq, beq_iff_eq] at h
  rcases h with rfl | rfl
  · exact hon
  · exact hoff

theorem saidOf_of_not_isNamed (h : isNamed field = false) :
    saidOf "-W" "all" field = none ∧ (∀ w : Warning, saidOf "-W" w.name field = none) ∧
      ∀ f : Feature, saidOf "-F" f.name field = none := by
  simp only [isNamed, Bool.or_eq_false_iff, List.any_eq_false, Option.not_isSome_iff_eq_none,
    Option.isSome_eq_false_iff, Option.isNone_iff_eq_none] at h
  exact ⟨h.1.1, fun w => h.1.2 w w.mem_all, fun f => h.2 f f.mem_all⟩

theorem saidOf_feature_of_isBroad (h : isBroad field = true) (name : String) :
    saidOf "-F" name field = none := by
  apply saidOf_eq_none
  rw [isBroad, Bool.or_eq_true, beq_iff_eq, beq_iff_eq] at h
  rcases h with rfl | rfl <;> decide

end Directive

/-! ## One directive -/

attribute [ext] Switches

namespace Settings

open Directive

variable (s : Settings)

/-- A directive changes switches and nothing else. -/
theorem apply_eq (d : Directive) : s.apply d = { s with switches := (s.apply d).switches } := by
  cases d with
  | everyWarning on => rfl
  | warning name on =>
    rw [apply]
    split <;> rfl
  | feature name on =>
    rw [apply]
    split <;> rfl

theorem warning_apply_ofWarningName (name : List Char) (on : Bool) (w : Warning) :
    (s.apply (ofWarningName name on)).switches.warning w =
      if name = w.name.toList ∨ (name = "all".toList ∧ w ≠ .pedantic) then on
      else s.switches.warning w := by
  unfold ofWarningName
  split
  next hall =>
    have hname : name ≠ w.name.toList := fun heq =>
      w.name_ne_all (String.toList_inj.1 (heq.symm.trans hall))
    change (if w = .pedantic then s.switches.warning w else on) = _
    by_cases hw : w = .pedantic
    · have hkept : ¬ (name = w.name.toList ∨ (name = "all".toList ∧ w ≠ .pedantic)) :=
        not_or.2 ⟨hname, fun h => h.2 hw⟩
      rw [if_pos hw, if_neg hkept]
    · rw [if_neg hw, if_pos (.inr ⟨hall, hw⟩)]
  next hall =>
    rw [apply]
    by_cases hw : name = w.name.toList
    · have hfound : Warning.ofName? (String.ofList name) = some w := by
        rw [Warning.ofName?_eq_some, hw, String.ofList_toList]
      rw [hfound, if_pos (.inl hw)]
      exact if_pos rfl
    · have hkept : ¬ (name = w.name.toList ∨ (name = "all".toList ∧ w ≠ .pedantic)) :=
        not_or.2 ⟨hw, fun h => hall h.1⟩
      rw [if_neg hkept]
      split
      next v hv =>
        refine if_neg ?_
        rintro rfl
        rw [Warning.ofName?_eq_some] at hv
        exact hw (by rw [hv, String.toList_ofList])
      next => rfl

theorem feature_apply_ofWarningName (name : List Char) (on : Bool) (f : Feature) :
    (s.apply (ofWarningName name on)).switches.feature f = s.switches.feature f := by
  unfold ofWarningName
  split
  next => rfl
  next =>
    rw [apply]
    split <;> rfl

theorem feature_apply_feature (name : List Char) (on : Bool) (f : Feature) :
    (s.apply (.feature (String.ofList name) on)).switches.feature f =
      if name = f.name.toList then on else s.switches.feature f := by
  rw [apply]
  by_cases hf : name = f.name.toList
  · have hfound : Feature.ofName? (String.ofList name) = some f := by
      rw [Feature.ofName?_eq_some, hf, String.ofList_toList]
    rw [hfound, if_pos hf]
    exact if_pos rfl
  · rw [if_neg hf]
    split
    next v hv =>
      refine if_neg ?_
      rintro rfl
      rw [Feature.ofName?_eq_some] at hv
      exact hf (by rw [hv, String.toList_ofList])
    next => rfl

theorem warning_apply_feature (name : String) (on : Bool) (w : Warning) :
    (s.apply (.feature name on)).switches.warning w = s.switches.warning w := by
  rw [apply]
  split <;> rfl

/-- One of two reasons for a change, of which the second has an exception. -/
theorem ite_or_and_not (p q r : Prop) [Decidable p] [Decidable q] [Decidable r] (on old : Bool) :
    (if p ∨ (q ∧ ¬ r) then on else old) =
      ((if p then some on else none).or (if r then none else if q then some on else none)).getD
        old := by
  by_cases hp : p <;> by_cases hq : q <;> by_cases hr : r <;> simp [hp, hq, hr]

theorem warning_apply (h : IsSwitch field) (w : Warning) :
    (s.apply (ofField field)).switches.warning w =
      ((saidOf "-W" w.name field).or (if w = .pedantic then none else saidOf "-W" "all" field)).getD
        (s.switches.warning w) := by
  obtain ⟨cs, rfl⟩ | ⟨cs, rfl⟩ := h
  · obtain ⟨name, rfl, hread⟩ | ⟨hplain, hread⟩ := ofField_warning cs
    · rw [hread, warning_apply_ofWarningName, saidOf_negated w.isPlainName,
        saidOf_negated isPlainName_all]
      exact ite_or_and_not _ _ _ _ _
    · rw [hread, warning_apply_ofWarningName, saidOf_plain hplain, saidOf_plain hplain]
      exact ite_or_and_not _ _ _ _ _
  · have hlead : ¬ "-W".toList <+: "-F".toList ++ cs := by
      rintro ⟨_, heq⟩
      cases heq
    rw [saidOf_eq_none hlead, saidOf_eq_none hlead, ite_self, Option.or_none, Option.getD_none]
    obtain ⟨name, rfl, hread⟩ | ⟨-, hread⟩ := ofField_feature cs <;> rw [hread, warning_apply_feature]

theorem feature_apply (h : IsSwitch field) (f : Feature) :
    (s.apply (ofField field)).switches.feature f =
      (saidOf "-F" f.name field).getD (s.switches.feature f) := by
  obtain ⟨cs, rfl⟩ | ⟨cs, rfl⟩ := h
  · have hlead : ¬ "-F".toList <+: "-W".toList ++ cs := by
      rintro ⟨_, heq⟩
      cases heq
    rw [saidOf_eq_none hlead, Option.getD_none]
    obtain ⟨name, rfl, hread⟩ | ⟨-, hread⟩ := ofField_warning cs <;>
      rw [hread, feature_apply_ofWarningName]
  · obtain ⟨name, rfl, hread⟩ | ⟨hplain, hread⟩ := ofField_feature cs
    · rw [hread, feature_apply_feature, saidOf_negated f.isPlainName]
      split <;> rfl
    · rw [hread, feature_apply_feature, saidOf_plain hplain]
      split <;> rfl

/-! ## Many directives -/

/-- If every field changes what is seen of the settings as it says, the last word stands. -/
theorem foldl_apply_lastWord (view : Settings → Bool) {voice : List Char → Option Bool}
    {fields : List (List Char)}
    (h : ∀ field ∈ fields, ∀ s, view (s.apply (ofField field)) = (voice field).getD (view s)) :
    view ((fields.map ofField).foldl apply s) = (lastWord voice fields).getD (view s) := by
  induction fields generalizing s with
  | nil => rfl
  | cons field fields ih =>
    obtain ⟨hfirst, hrest⟩ := List.forall_mem_cons.1 h
    rw [List.map_cons, List.foldl_cons, ih _ hrest, hfirst, lastWord_cons]
    cases lastWord voice fields <;> rfl

theorem foldl_apply_eq (ds : List Directive) :
    ds.foldl apply s = { s with switches := (ds.foldl apply s).switches } := by
  induction ds generalizing s with
  | nil => rfl
  | cons d ds ih =>
    rw [List.foldl_cons, ih, apply_eq]

/-- The directives of a text: those on all warnings, then the others. -/
theorem applyText_eq (text : String) :
    let fields := Text.words text.toList
    s.applyText text =
      ((fields.filter (!isBroad ·)).map ofField).foldl apply
        (((fields.filter isBroad).map ofField).foldl apply s) := by
  simp only [applyText, List.map_append, List.foldl_append]

theorem applyText_switches (text : String) :
    s.applyText text = { s with switches := (s.applyText text).switches } :=
  foldl_apply_eq _ _

section Text

variable {text : String} (h : ∀ field ∈ Text.words text.toList, IsSwitch field)

include h

theorem warning_applyText (w : Warning) :
    (s.applyText text).switches.warning w =
      ((lastWord (saidOf "-W" w.name) (Text.words text.toList)).or
        (if w = .pedantic then none else lastWord (saidOf "-W" "all") (Text.words text.toList))).getD
        (s.switches.warning w) := by
  -- the fields that come first have no say on a single warning, the others none on all of them
  have hsingle : ∀ field ∈ (Text.words text.toList).filter (!isBroad ·), ∀ s : Settings,
      (s.apply (ofField field)).switches.warning w =
        (saidOf "-W" w.name field).getD (s.switches.warning w) := by
    intro field hfield s
    obtain ⟨hmem, hnarrow⟩ := List.mem_filter.1 hfield
    rw [warning_apply s (h field hmem), saidOf_of_not_isBroad (by simpa using hnarrow), ite_self,
      Option.or_none]
  have hbroad : ∀ field ∈ (Text.words text.toList).filter isBroad, ∀ s : Settings,
      (s.apply (ofField field)).switches.warning w =
        (if w = .pedantic then none else saidOf "-W" "all" field).getD (s.switches.warning w) := by
    intro field hfield s
    obtain ⟨hmem, hbroad⟩ := List.mem_filter.1 hfield
    rw [warning_apply s (h field hmem), saidOf_of_isBroad hbroad, Option.none_or]
  have hfirst : lastWord (fun field => if w = .pedantic then none else saidOf "-W" "all" field)
      ((Text.words text.toList).filter isBroad) =
        if w = .pedantic then none else lastWord (saidOf "-W" "all") (Text.words text.toList) := by
    split
    next => exact lastWord_eq_none fun _ _ => rfl
    next => exact lastWord_filter fun _ _ hnot => saidOf_of_not_isBroad hnot
  have hrest : lastWord (saidOf "-W" w.name) ((Text.words text.toList).filter (!isBroad ·)) =
      lastWord (saidOf "-W" w.name) (Text.words text.toList) :=
    lastWord_filter fun field _ hnot => saidOf_of_isBroad (by simpa using hnot) w
  rw [applyText_eq, foldl_apply_lastWord _ (·.switches.warning w) hsingle,
    foldl_apply_lastWord _ (·.switches.warning w) hbroad, hfirst, hrest]
  cases lastWord (saidOf "-W" w.name) (Text.words text.toList) <;> rfl

theorem feature_applyText (f : Feature) :
    (s.applyText text).switches.feature f =
      (lastWord (saidOf "-F" f.name) (Text.words text.toList)).getD (s.switches.feature f) := by
  have hstep (p : List Char → Bool) : ∀ field ∈ (Text.words text.toList).filter p, ∀ s : Settings,
      (s.apply (ofField field)).switches.feature f =
        (saidOf "-F" f.name field).getD (s.switches.feature f) := by
    intro field hfield s
    exact feature_apply s (h field (List.mem_filter.1 hfield).1) f
  have hfirst : lastWord (saidOf "-F" f.name) ((Text.words text.toList).filter isBroad) = none :=
    lastWord_eq_none fun field hfield =>
      saidOf_feature_of_isBroad (List.mem_filter.1 hfield).2 f.name
  have hrest : lastWord (saidOf "-F" f.name) ((Text.words text.toList).filter (!isBroad ·)) =
      lastWord (saidOf "-F" f.name) (Text.words text.toList) :=
    lastWord_filter fun field _ hnot => saidOf_feature_of_isBroad (by simpa using hnot) f.name
  rw [applyText_eq, foldl_apply_lastWord _ (·.switches.feature f) (hstep _),
    foldl_apply_lastWord _ (·.switches.feature f) (hstep _), hfirst, hrest]
  rfl

end Text

theorem applyText_congr {text text' : String}
    (hwarning : (s.applyText text).switches.warning = (s.applyText text').switches.warning)
    (hfeature : (s.applyText text).switches.feature = (s.applyText text').switches.feature) :
    s.applyText text = s.applyText text' := by
  have hswitches : (s.applyText text).switches = (s.applyText text').switches :=
    Switches.ext hfeature hwarning
  calc s.applyText text
      = { s with switches := (s.applyText text).switches } := s.applyText_switches text
    _ = { s with switches := (s.applyText text').switches } := by rw [hswitches]
    _ = s.applyText text' := (s.applyText_switches text').symm

/-- Only fields that name something matter. -/
theorem applyText_isNamed {text text' : String} (h : ∀ field ∈ Text.words text.toList, IsSwitch field)
    (h' : ∀ field ∈ Text.words text'.toList, IsSwitch field)
    (hnamed : (Text.words text.toList).filter isNamed = (Text.words text'.toList).filter isNamed) :
    s.applyText text = s.applyText text' := by
  have hsame {voice : List Char → Option Bool}
      (hvoice : ∀ field, isNamed field = false → voice field = none) :
      lastWord voice (Text.words text.toList) = lastWord voice (Text.words text'.toList) := by
    rw [← lastWord_filter fun field _ => hvoice field, hnamed,
      lastWord_filter fun field _ => hvoice field]
  apply applyText_congr
  · funext w
    rw [warning_applyText s h, warning_applyText s h',
      hsame fun field hnot => (saidOf_of_not_isNamed hnot).2.1 w,
      hsame fun field hnot => (saidOf_of_not_isNamed hnot).1]
  · funext f
    rw [feature_applyText s h, feature_applyText s h',
      hsame fun field hnot => (saidOf_of_not_isNamed hnot).2.2 f]

/-- The directives of a text leave every switch as the last field says that names it, and else as it
    was. A warning that no field names, other than `pedantic`, follows the last field on all warnings.
    Nothing else changes; fields with names that nothing has do not count, and it does not matter
    where among the others the fields on all warnings stand. -/
theorem applyText_lastWord (text : String) (h : ∀ field ∈ Text.words text.toList, IsSwitch field) :
    (∀ w, w ≠ .pedantic → (s.applyText text).switches.warning w =
      ((lastWord (saidOf "-W" w.name) (Text.words text.toList)).or
        (lastWord (saidOf "-W" "all") (Text.words text.toList))).getD (s.switches.warning w)) ∧
    (s.applyText text).switches.warning .pedantic =
      (lastWord (saidOf "-W" "pedantic") (Text.words text.toList)).getD
        (s.switches.warning .pedantic) ∧
    (∀ f, (s.applyText text).switches.feature f =
      (lastWord (saidOf "-F" f.name) (Text.words text.toList)).getD (s.switches.feature f)) ∧
    s.applyText text = { s with switches := (s.applyText text).switches } ∧
    (∀ text', (∀ field ∈ Text.words text'.toList, IsSwitch field) →
      (Text.words text.toList).filter isNamed = (Text.words text'.toList).filter isNamed →
      s.applyText text = s.applyText text') ∧
    ∀ text', (Text.words text.toList).filter isBroad = (Text.words text'.toList).filter isBroad →
      (Text.words text.toList).filter (!isBroad ·) = (Text.words text'.toList).filter (!isBroad ·) →
      s.applyText text = s.applyText text' := by
  refine ⟨fun w hw => ?_, ?_, feature_applyText s h, s.applyText_switches text,
    fun text' h' => s.applyText_isNamed h h', fun text' hbroad hothers => ?_⟩
  · rw [warning_applyText s h, if_neg hw]
  · rw [warning_applyText s h, if_pos rfl, Option.or_none]
    rfl
  · rw [applyText_eq, applyText_eq, hbroad, hothers]

/-- Directives on all warnings among others, and names that nothing has. -/
def mixedText : String :=
  "-Wshadow -Wno-all -Fno-no-by-ref\t-Wno-extra -Wno-no-shadow -Wall -Fno-continue -Wbogus -Fcontinue"

theorem applyText_lastWord_mixedText :
    (∀ field ∈ Text.words mixedText.toList, IsSwitch field) ∧
    (({} : Settings).applyText mixedText).switches.warning .extra = false ∧
    (({} : Settings).applyText mixedText).switches.warning .shadow = true ∧
    (({} : Settings).applyText mixedText).switches.warning .pedantic = false ∧
    (({} : Settings).applyText mixedText).switches.feature .continueStatement = true := by
  have h : ∀ field ∈ Text.words mixedText.toList, IsSwitch field := by decide
  obtain ⟨hwarning, hpedantic, hfeature, -⟩ := applyText_lastWord {} mixedText h
  refine ⟨h, ?_, ?_, ?_, ?_⟩
  · rw [hwarning .extra (by decide)]
    decide
  · rw [hwarning .shadow (by decide)]
    decide
  · rw [hpedantic]
    decide
  · rw [hfeature]
    decide

end Settings
end MiniCompiler
