import Mathlib.Data.List.TakeWhile
import MiniCompiler.Arguments.Flag

/-!
# Reading flags

While arguments are read, a set of flags changes in its values only: `FlagSet.withValues` is a set
with other values. An argument mentions a flag by its whole name or by its short one, and where names
are what names should be (`FlagSet.WellNamed`) it is clear which.

Main statement: `FlagSet.read_written`, values that are written as arguments are read back.
-/

namespace MiniCompiler.Arguments

namespace FlagSet

/-! ## Values -/

/-- The flags of a set with other values. -/
def withValues (s : FlagSet) (v : Flag → Value) : FlagSet :=
  { s with flags := s.flags.map fun f => { f with value := v f } }

variable {s : FlagSet} {v : Flag → Value} {f : Flag}

theorem withValues_value (s : FlagSet) : s.withValues Flag.value = s := by
  have hmap : s.flags.map (fun f : Flag => { f with value := f.value }) = s.flags := List.map_id _
  simp only [withValues, hmap]

theorem withValues_congr {v' : Flag → Value} (h : ∀ f ∈ s.flags, v f = v' f) :
    s.withValues v = s.withValues v' := by
  simp only [withValues]
  congr 1
  apply List.map_congr_left
  intro f hf
  rw [h f hf]

theorem set_withValues (s : FlagSet) (v : Flag → Value) (name : String) (x : Value) :
    (s.withValues v).set name x = s.withValues fun f => if f.name = name then x else v f := by
  simp only [set, withValues, List.map_map]
  congr 1
  apply List.map_congr_left
  intro f _
  simp only [Function.comp_apply]
  split <;> rfl

theorem find?_withValues (s : FlagSet) (v : Flag → Value) (name : String) :
    (s.withValues v).find? name = (s.find? name).map fun f => { f with value := v f } := by
  simp only [find?, withValues, List.find?_map]
  rfl

theorem findShort?_withValues (s : FlagSet) (v : Flag → Value) (short : String) :
    (s.withValues v).findShort? short =
      (s.findShort? short).map fun f => { f with value := v f } := by
  unfold findShort?
  split
  next => rfl
  next =>
    simp only [withValues, List.find?_map]
    rfl

theorem value?_withValues (s : FlagSet) (v : Flag → Value) (name : String) :
    (s.withValues v).value? name = (s.find? name).map v := by
  rw [value?, find?_withValues, Option.map_map]
  rfl

theorem shortMention?_withValues (s : FlagSet) (v : Flag → Value) (argument : List Char) :
    (s.withValues v).shortMention? argument = (s.shortMention? argument).map fun m =>
      { m with flag := { m.flag with value := v m.flag } } := by
  fun_cases shortMention? s argument with
  | case1 c cs hc => rw [shortMention?, if_pos hc]; rfl
  | case2 c cs hc =>
    rw [shortMention?, if_neg hc, findShort?_withValues, Option.map_map, Option.map_map]
    rfl
  | case3 argument hother =>
    rw [shortMention?]
    · rfl
    · exact hother

/-- Which flag is mentioned does not depend on values. -/
theorem mention?_withValues (s : FlagSet) (v : Flag → Value) (argument : List Char) :
    (s.withValues v).mention? argument = (s.mention? argument).map fun m =>
      { m with flag := { m.flag with value := v m.flag } } := by
  simp only [mention?, find?_withValues]
  cases s.find? (cutAtEquals (dropDash (dropDash argument))).1 with
  | some f => rfl
  | none => exact s.shortMention?_withValues v argument

/-! ## Names -/

/-- Names of flags as they should be: no two flags have the same, each has two characters or more, the
    first of which is no dash and none of which is an equals sign, and short names have no more than
    one byte. -/
structure WellNamed (s : FlagSet) : Prop where
  distinct : (s.flags.map Flag.name).Nodup
  long : ∀ f ∈ s.flags, 2 ≤ f.name.length
  noDash : ∀ f ∈ s.flags, f.name.toList.head? ≠ some '-'
  noEquals : ∀ f ∈ s.flags, '=' ∉ f.name.toList
  short : ∀ f ∈ s.flags, f.short.utf8ByteSize ≤ 1

/-- In a list of flags with distinct names the first one with a name is the only one. -/
theorem find?_name_eq_some {flags : List Flag} (h : (flags.map Flag.name).Nodup)
    (hf : f ∈ flags) : flags.find? (·.name == f.name) = some f := by
  induction flags with
  | nil => cases hf
  | cons g flags ih =>
    rw [List.map_cons, List.nodup_cons] at h
    rw [List.find?_cons]
    obtain rfl | hmem := List.mem_cons.1 hf
    · simp
    · have hne : (g.name == f.name) = false := by
        rw [beq_eq_false_iff_ne]
        intro heq
        exact h.1 (heq ▸ List.mem_map_of_mem hmem)
      rw [hne]
      exact ih h.2 hmem

theorem WellNamed.find?_eq_some (h : s.WellNamed) (hf : f ∈ s.flags) :
    s.find? f.name = some f :=
  find?_name_eq_some h.distinct hf

theorem WellNamed.eq_of_name (h : s.WellNamed) {f g : Flag} (hf : f ∈ s.flags) (hg : g ∈ s.flags)
    (hname : f.name = g.name) : f = g := by
  have hfound := h.find?_eq_some hf
  rw [hname, h.find?_eq_some hg] at hfound
  exact (Option.some.inj hfound).symm

theorem two_le_utf8ByteSize {name : String} (h : 2 ≤ name.length) : 2 ≤ name.utf8ByteSize := by
  have hsize (c : Char) : 1 ≤ (String.ofList [c]).utf8ByteSize := by
    have hone : (String.ofList [c]).utf8ByteSize = c.utf8Size := String.utf8ByteSize_singleton
    rw [hone]
    exact c.utf8Size_pos
  rw [← String.length_toList] at h
  rcases hname : name.toList with - | ⟨a, - | ⟨b, cs⟩⟩
  · simp [hname] at h
  · simp [hname] at h
  · have hsplit : name = String.ofList ([a] ++ ([b] ++ cs)) := String.toList_inj.1 (by simp [hname])
    have ha := hsize a
    have hb := hsize b
    rw [hsplit, String.ofList_append, String.ofList_append, String.utf8ByteSize_append,
      String.utf8ByteSize_append]
    omega

/-- A name is never a short name. -/
theorem WellNamed.short_ne_name (h : s.WellNamed) {f g : Flag} (hf : f ∈ s.flags) (hg : g ∈ s.flags) :
    f.short ≠ g.name := by
  intro heq
  have hlong := two_le_utf8ByteSize (h.long g hg)
  have hshort := h.short f hf
  rw [heq] at hshort
  omega

/-! ## Mentions -/

/-- What is attached to a name in an argument. -/
def attachment : Option String → List Char
  | some value => '=' :: value.toList
  | none => []

theorem cutAtEquals_attachment {name : String} (h : '=' ∉ name.toList) (attached : Option String) :
    cutAtEquals (name.toList ++ attachment attached) = (name, attached) := by
  have hall : ∀ c ∈ name.toList, decide (c ≠ '=') = true := by
    intro c hc
    simpa using fun heq : c = '=' => h (heq ▸ hc)
  cases attached with
  | none =>
    simp only [cutAtEquals, attachment, List.append_nil, List.takeWhile_eq_self_iff.2 hall,
      List.dropWhile_eq_nil_iff.2 hall, String.ofList_toList]
  | some value =>
    simp only [cutAtEquals, attachment, List.takeWhile_append_of_pos hall,
      List.dropWhile_append_of_pos hall]
    simp

/-- The dashes that a flag may be written with. -/
def leadingDashes : List (List Char) := [['-'], ['-', '-']]

theorem dropDash_leadingDashes {dashes cs : List Char} (hdashes : dashes ∈ leadingDashes)
    (hcs : cs.head? ≠ some '-') : dropDash (dropDash (dashes ++ cs)) = cs := by
  have hone : dropDash cs = cs := by
    rw [dropDash]
    rintro ds rfl
    exact hcs rfl
  rcases List.mem_cons.1 hdashes with rfl | hdashes
  · exact hone
  · cases List.mem_singleton.1 hdashes
    rfl

theorem WellNamed.head?_ne (h : s.WellNamed) (hf : f ∈ s.flags) (cs : List Char) :
    (f.name.toList ++ cs).head? ≠ some '-' := by
  have hlong := h.long f hf
  have hdash := h.noDash f hf
  rw [← String.length_toList] at hlong
  cases hname : f.name.toList with
  | nil => simp [hname] at hlong
  | cons c name =>
    rw [hname] at hdash
    exact hdash

/-- A flag is mentioned by its name, with one dash or with two. -/
theorem WellNamed.mention?_name (h : s.WellNamed) (hf : f ∈ s.flags) {dashes : List Char}
    (hdashes : dashes ∈ leadingDashes) (attached : Option String) :
    s.mention? (dashes ++ (f.name.toList ++ attachment attached)) = some ⟨f, false, attached⟩ := by
  have hshort : (f.short == f.name) = false := beq_eq_false_iff_ne.2 (h.short_ne_name hf hf)
  simp only [mention?, dropDash_leadingDashes hdashes (h.head?_ne hf _),
    cutAtEquals_attachment (h.noEquals f hf), h.find?_eq_some hf, hshort]

end FlagSet

/-! ## Assignments -/

/-- A text for the flag of a name. -/
structure Assignment where
  name : String
  given : String

namespace Assignment

def written (a : Assignment) : String := "--" ++ a.name ++ "=" ++ a.given

/-- The flag of the assignment is in the set, and a switch is given `true` or `false`. -/
def Fits (s : FlagSet) (a : Assignment) : Prop :=
  ∃ f ∈ s.flags, f.name = a.name ∧
    (f.value.isSwitch = true → a.given = "true" ∨ a.given = "false")

end Assignment

/-- The texts for the flag of a name. -/
def givenTo (name : String) (as : List Assignment) : List String :=
  (as.filter (·.name == name)).map Assignment.given

namespace Value

/-- A value after texts were given to it: the last one counts, and a list has them all. -/
def after : Value → List String → Value
  | .text s, texts => .text (texts.getLastD s)
  | .switch on, texts => .switch ((texts.getLast?.map (· == "true")).getD on)
  | .items old, texts => .items (if texts = [] then old else some (old.getD [] ++ texts))

theorem after_nil (v : Value) : v.after [] = v := by
  cases v <;> rfl

theorem isSwitch_after (v : Value) (texts : List String) : (v.after texts).isSwitch = v.isSwitch := by
  cases v <;> rfl

theorem after_concat_of_isSwitch {v : Value} (h : v.isSwitch = true) (texts : List String)
    (t : String) : v.after (texts ++ [t]) = .switch (t == "true") := by
  cases v with
  | switch on => simp [after]
  | text | items => cases h

theorem assigned_after {v : Value} (h : v.isSwitch = false) (texts : List String) (t : String) :
    FlagSet.assigned (v.after texts) t = v.after (texts ++ [t]) := by
  cases v with
  | text s => simp [after, FlagSet.assigned]
  | switch on => cases h
  | items old =>
    by_cases hnil : texts = []
    · simp [after, FlagSet.assigned, hnil]
    · simp [after, FlagSet.assigned, hnil]

end Value

namespace FlagSet

variable {s : FlagSet}

def after (s : FlagSet) (as : List Assignment) : FlagSet :=
  s.withValues fun f => f.value.after (givenTo f.name as)

theorem after_nil (s : FlagSet) : s.after [] = s := by
  have hvalues : (fun f : Flag => f.value.after (givenTo f.name [])) = Flag.value :=
    funext fun f => f.value.after_nil
  rw [after, hvalues, withValues_value]

/-- A new value is what an assignment makes of the old one. -/
theorem WellNamed.set_after (h : s.WellNamed) (hf : f ∈ s.flags) (done : List Assignment)
    (t : String) :
    (s.after done).set f.name (f.value.after (givenTo f.name done ++ [t])) =
      s.after (done ++ [⟨f.name, t⟩]) := by
  rw [after, set_withValues]
  refine withValues_congr fun g hg => ?_
  by_cases hname : g.name = f.name
  · cases h.eq_of_name hg hf hname
    simp [givenTo]
  · have hne : (f.name == g.name) = false := beq_eq_false_iff_ne.2 (Ne.symm hname)
    simp [givenTo, hname, hne]

/-- A written assignment is read to what it assigns. -/
theorem WellNamed.read_after (h : s.WellNamed) {a : Assignment} (ha : a.Fits s)
    (done : List Assignment) (rest : List String) :
    (s.after done).read (a.written :: rest) = (s.after (done ++ [a])).read rest := by
  obtain ⟨name, t⟩ := a
  obtain ⟨f, hf, rfl, hgiven⟩ := ha
  have hchars : (Assignment.written ⟨f.name, t⟩).toList =
      ['-', '-'] ++ (f.name.toList ++ attachment (some t)) := by
    simp [Assignment.written, attachment]
  have hdashes : Assignment.written ⟨f.name, t⟩ ≠ "--" := by
    intro heq
    rw [heq] at hchars
    simp [attachment] at hchars
  have hmention : (s.after done).mention? (Assignment.written ⟨f.name, t⟩).toList =
      some ⟨{ f with value := f.value.after (givenTo f.name done) }, false, some t⟩ := by
    rw [hchars, after, mention?_withValues, h.mention?_name hf (by decide)]
    rfl
  have hordinary : isOrdinary (Assignment.written ⟨f.name, t⟩).toList = false := by
    rw [hchars]
    rfl
  rw [read, if_neg hdashes, hordinary, hmention]
  simp only [Bool.false_eq_true, if_false, Value.isSwitch_after, Option.getD_some]
  cases hswitch : f.value.isSwitch with
  | true =>
    have hstate : switchState t = .ok (t == "true") := by
      rcases hgiven hswitch with rfl | rfl <;> rfl
    simp only [if_true, hstate]
    rw [← h.set_after hf, Value.after_concat_of_isSwitch hswitch]
  | false =>
    simp only [Bool.false_eq_true, if_false]
    rw [← h.set_after hf, Value.assigned_after hswitch]

theorem WellNamed.read_afterAll (h : s.WellNamed) {as : List Assignment}
    (has : ∀ a ∈ as, a.Fits s) (done : List Assignment) (rest : List String) :
    (s.after done).read (as.map Assignment.written ++ rest) = (s.after (done ++ as)).read rest := by
  induction as generalizing done with
  | nil => simp
  | cons a as ih =>
    obtain ⟨ha, has⟩ := List.forall_mem_cons.1 has
    rw [List.map_cons, List.cons_append, h.read_after ha, ih has, List.append_assoc]
    rfl

/-- Assignments that are written as arguments are read back, whatever they give and whatever stands
    behind the double dash. Every text and every switch has the last value that it was given, or the
    one from before, and every list has what was given to it behind what it had. -/
theorem read_written (s : FlagSet) (h : s.WellNamed) (as : List Assignment)
    (has : ∀ a ∈ as, a.Fits s) (ordinary : List String) :
    s.read (as.map Assignment.written ++ "--" :: ordinary) =
      ⟨s.withValues fun f => f.value.after (givenTo f.name as), ordinary, none⟩ := by
  have hread := h.read_afterAll has [] ("--" :: ordinary)
  rw [s.after_nil, List.nil_append] at hread
  rw [hread, read, if_pos rfl, after]

/-- Names that are parts of one another. -/
def closeNames : FlagSet where
  flags := [
    { name := "no", short := "n", value := .text "a" },
    { name := "no-no", short := "o", value := .switch true },
    { name := "n\u00f6", value := .items none },
    { name := "noo", value := .items (some ["b"]) }]

/-- Values that look like arguments, or are empty. -/
def oddAssignments : List Assignment :=
  [⟨"n\u00f6", "--no=c"⟩, ⟨"no", "=-"⟩, ⟨"no-no", "true"⟩, ⟨"n\u00f6", ""⟩, ⟨"no", "--"⟩,
   ⟨"no-no", "false"⟩]

theorem read_written_closeNames :
    closeNames.WellNamed ∧ (∀ a ∈ oddAssignments, a.Fits closeNames) ∧
    closeNames.read (oddAssignments.map Assignment.written ++ "--" :: ["-n", "--", ""]) =
      ⟨closeNames.withValues fun f => f.value.after (givenTo f.name oddAssignments),
        ["-n", "--", ""], none⟩ ∧
    (closeNames.withValues fun f => f.value.after (givenTo f.name oddAssignments)).flags.map
      Flag.value =
        [.text "--", .switch false, .items (some ["--no=c", ""]), .items (some ["b"])] := by
  have h : closeNames.WellNamed :=
    ⟨by decide, by decide, by decide, by decide, by decide⟩
  have has : ∀ a ∈ oddAssignments, a.Fits closeNames := by
    unfold Assignment.Fits
    decide
  exact ⟨h, has, read_written closeNames h oddAssignments has _, rfl⟩

end FlagSet
end MiniCompiler.Arguments
