import Mathlib.Data.List.Basic
import MiniCompiler.Path

/-!
# Where paths lead

The place of a path is the way that its names lead, whatever is on the disk (`Path.place`). The shortest
form of a path leads to the same place (`Path.place_clean`), and a path from the root is the text of its
place (`Path.Rooted.eq_ofNames`).
-/

namespace MiniCompiler

/-! ## The names of a path -/

namespace Text

theorem not_mem_of_mem_splitAt {sep : Char} {part cs : List Char} (h : part ∈ splitAt sep cs) :
    sep ∉ part := by
  induction cs generalizing part with
  | nil => simp_all [splitAt]
  | cons c cs ih =>
    rw [splitAt] at h
    split at h
    next =>
      obtain rfl | h := List.mem_cons.1 h
      · exact List.not_mem_nil
      · exact ih h
    next hc =>
      split at h
      next first parts hparts =>
        obtain rfl | h := List.mem_cons.1 h
        · rw [List.mem_cons, not_or]
          exact ⟨Ne.symm hc, ih (by simp [hparts])⟩
        · exact ih (by simp [hparts, h])
      next hparts => exact absurd hparts (splitAt_ne_nil sep cs)

/-- A separator divides a text that ends in a part without separators. -/
theorem splitAt_concat {sep : Char} {last : List Char} (h : sep ∉ last) (cs : List Char) :
    splitAt sep (cs ++ sep :: last) = splitAt sep cs ++ [last] := by
  induction cs with
  | nil => simp [splitAt, splitAt_eq_singleton h]
  | cons c cs ih =>
    rw [List.cons_append, splitAt, splitAt, ih]
    split
    · rfl
    · cases hparts : splitAt sep cs with
      | nil => exact absurd hparts (splitAt_ne_nil sep cs)
      | cons part parts => rfl

end Text

namespace Path

variable {ns back : List String} {absolute : Bool} {name path : String}

/-- A name that leads on to a file or a folder. -/
structure Proper (name : String) : Prop where
  ne_empty : name ≠ ""
  ne_dot : name ≠ "."
  ne_dots : name ≠ ".."
  no_slash : '/' ∉ name.toList

theorem no_slash_of_mem_names (h : name ∈ names path) : '/' ∉ name.toList := by
  obtain ⟨part, hpart, rfl⟩ := List.mem_map.1 h
  rw [String.toList_ofList]
  exact Text.not_mem_of_mem_splitAt hpart

theorem toList_slash : "/".toList = ['/'] := rfl

theorem names_cons (h : '/' ∉ name.toList) (path : String) :
    names (name ++ "/" ++ path) = name :: names path := by
  rw [names, names, String.toList_append, String.toList_append, toList_slash, List.append_assoc,
    List.singleton_append, Text.splitAt_append h, List.map_cons, String.ofList_toList]

theorem names_concat (path : String) (h : '/' ∉ name.toList) :
    names (path ++ "/" ++ name) = names path ++ [name] := by
  rw [names, names, String.toList_append, String.toList_append, toList_slash, List.append_assoc,
    List.singleton_append, Text.splitAt_concat h, List.map_append, List.map_singleton,
    String.ofList_toList]

theorem names_intercalate (hne : ns ≠ []) (h : ∀ n ∈ ns, '/' ∉ n.toList) :
    names ("/".intercalate ns) = ns := by
  induction ns with
  | nil => exact absurd rfl hne
  | cons n ns ih =>
    have hn := h n List.mem_cons_self
    cases ns with
    | nil =>
      rw [String.intercalate_singleton, names, Text.splitAt_eq_singleton hn, List.map_singleton,
        String.ofList_toList]
    | cons n' ns =>
      rw [String.intercalate_cons_cons, names_cons hn, ih (List.cons_ne_nil n' ns) fun m hm =>
        h m (List.mem_cons_of_mem n hm)]

theorem ofNames_true (ns : List String) : ofNames true ns = "" ++ "/" ++ "/".intercalate ns := by
  rw [ofNames, if_pos rfl, String.empty_append]

theorem ofNames_false (hne : ns ≠ []) : ofNames false ns = "/".intercalate ns := by
  rw [ofNames, if_neg Bool.false_ne_true, if_neg hne]

theorem names_ofNames_true (hne : ns ≠ []) (h : ∀ n ∈ ns, '/' ∉ n.toList) :
    names (ofNames true ns) = "" :: ns := by
  rw [ofNames_true, names_cons (by simp), names_intercalate hne h]

/-! ## The place of a path -/

/-- Follows a name from a folder. -/
def follow (way : List String) (name : String) : List String :=
  if name = "" ∨ name = "." then way
  else if name = ".." then way.dropLast
  else way ++ [name]

/-- The place that a path leads to from the folder `home`, if it leads anywhere. -/
def place (home : List String) (path : String) : List String :=
  (names path).foldl follow (if isAbsolute path then [] else home)

theorem follow_of_proper (h : Proper name) (way : List String) :
    follow way name = way ++ [name] := by
  simp [follow, h.ne_empty, h.ne_dot, h.ne_dots]

theorem foldl_follow_of_proper (h : ∀ n ∈ ns, Proper n) (way : List String) :
    ns.foldl follow way = way ++ ns := by
  induction ns generalizing way with
  | nil => simp
  | cons n ns ih =>
    rw [List.foldl_cons, follow_of_proper (h n List.mem_cons_self),
      ih fun m hm => h m (List.mem_cons_of_mem n hm), List.append_assoc, List.singleton_append]

/-- Names in shortest form: no name is left out when they are followed, and none is taken back in a
    path from the root. -/
def Reduced (absolute : Bool) (ns : List String) : Prop :=
  ∀ n ∈ ns, '/' ∉ n.toList ∧ n ≠ "" ∧ n ≠ "." ∧ (absolute = true → n ≠ "..")

/-- What a step does to names in shortest form: it passes a name over, takes back the last one, or adds
    the name. -/
theorem step_cases (h : Reduced absolute back) (name : String) :
    (name = "" ∨ name = ".") ∧ step absolute back name = back ∨
    name = ".." ∧ absolute = true ∧ back = [] ∧ step absolute back name = [] ∨
    name = ".." ∧ (∃ last, last ≠ ".." ∧ back = last :: step absolute back name) ∨
    (absolute = true → name ≠ "..") ∧ name ≠ "" ∧ name ≠ "." ∧
      step absolute back name = name :: back := by
  by_cases hskip : name = "" ∨ name = "."
  · exact .inl ⟨hskip, if_pos hskip⟩
  by_cases hdots : name = ".."
  · subst hdots
    rw [step.eq_def, if_neg hskip, if_pos rfl]
    cases back with
    | nil =>
      cases absolute with
      | true => exact .inr (.inl ⟨rfl, rfl, rfl, rfl⟩)
      | false => exact .inr (.inr (.inr ⟨by simp, by simp, by simp, rfl⟩))
    | cons last before =>
      by_cases hlast : last = ".."
      · subst hlast
        exact .inr (.inr (.inr ⟨(h ".." List.mem_cons_self).2.2.2, by simp, by simp, rfl⟩))
      · exact .inr (.inr (.inl ⟨rfl, last, hlast, by simp [hlast]⟩))
  · rw [step.eq_def, if_neg hskip, if_neg hdots]
    rw [not_or] at hskip
    exact .inr (.inr (.inr ⟨fun _ => hdots, hskip.1, hskip.2, rfl⟩))

theorem Reduced.step {absolute : Bool} {back : List String} {name : String}
    (h : Reduced absolute back) (hname : '/' ∉ name.toList) :
    Reduced absolute (step absolute back name) := by
  obtain ⟨-, heq⟩ | ⟨-, -, -, heq⟩ | ⟨-, last, -, heq⟩ | ⟨hdots, hempty, hdot, heq⟩ := step_cases h name
  · rwa [heq]
  · rw [heq]
    exact fun _ hn => absurd hn List.not_mem_nil
  · rw [heq] at h
    exact (List.forall_mem_cons.1 h).2
  · rw [heq]
    exact List.forall_mem_cons.2 ⟨⟨hname, hempty, hdot, hdots⟩, h⟩

theorem reduced_foldl_step (h : Reduced absolute back) (hns : ∀ n ∈ ns, '/' ∉ n.toList) :
    Reduced absolute (ns.foldl (step absolute) back) := by
  induction ns generalizing back with
  | nil => exact h
  | cons n ns ih =>
    exact ih (h.step (hns n List.mem_cons_self)) fun m hm => hns m (List.mem_cons_of_mem n hm)

/-- Taking a name up in shortest form is following it. -/
theorem foldl_follow_step {start : List String} (hstart : absolute = true → start = [])
    (h : Reduced absolute back) (name : String) :
    (step absolute back name).reverse.foldl follow start =
      follow (back.reverse.foldl follow start) name := by
  obtain ⟨hskip, heq⟩ | ⟨rfl, rfl, rfl, heq⟩ | ⟨rfl, last, hlast, heq⟩ | ⟨-, -, -, heq⟩ :=
    step_cases h name
  · rw [heq, follow, if_pos hskip]
  · rw [heq, hstart rfl]
    rfl
  · obtain ⟨-, hempty, hdot, -⟩ := h last (by rw [heq]; exact List.mem_cons_self)
    conv_rhs => rw [heq, List.reverse_cons, List.foldl_append]
    simp [follow, hempty, hdot, hlast]
  · rw [heq, List.reverse_cons, List.foldl_append]
    rfl

theorem foldl_follow_foldl_step {start : List String} (hstart : absolute = true → start = [])
    (h : Reduced absolute back) (hns : ∀ n ∈ ns, '/' ∉ n.toList) :
    (ns.foldl (step absolute) back).reverse.foldl follow start =
      ns.foldl follow (back.reverse.foldl follow start) := by
  -- one name at a time, and what was taken up so far stays in shortest form
  induction ns generalizing back with
  | nil => rfl
  | cons n ns ih =>
    rw [List.foldl_cons, List.foldl_cons, ← foldl_follow_step hstart h]
    exact ih (h.step (hns n List.mem_cons_self)) fun m hm => hns m (List.mem_cons_of_mem n hm)

theorem isAbsolute_ofNames_true (ns : List String) : isAbsolute (ofNames true ns) = true := by
  rw [ofNames_true, isAbsolute, String.toList_append, String.toList_append]
  rfl

theorem isAbsolute_intercalate (h : Reduced false ns) :
    isAbsolute ("/".intercalate ns) = false := by
  cases ns with
  | nil => rfl
  | cons n ns =>
    obtain ⟨hslash, hempty, -⟩ := h n List.mem_cons_self
    have hhead : ("/".intercalate (n :: ns)).toList.head? = n.toList.head? := by
      have hne : n.toList ≠ [] := fun hnil => hempty (String.toList_eq_nil_iff.1 hnil)
      cases ns with
      | nil => rw [String.intercalate_singleton]
      | cons n' ns =>
        rw [String.intercalate_cons_cons, String.append_assoc, String.toList_append,
          List.head?_append_of_ne_nil _ hne]
    rw [isAbsolute, hhead, beq_eq_false_iff_ne]
    exact fun hfirst => hslash (List.mem_of_mem_head? hfirst)

theorem place_ofNames (h : Reduced absolute ns) (home : List String) :
    place home (ofNames absolute ns) = ns.foldl follow (if absolute then [] else home) := by
  by_cases hne : ns = []
  · subst hne
    cases absolute <;> rfl
  have hslash : ∀ n ∈ ns, '/' ∉ n.toList := fun n hn => (h n hn).1
  cases absolute with
  | true =>
    rw [place, isAbsolute_ofNames_true, names_ofNames_true hne hslash]
    rfl
  | false =>
    rw [place, ofNames_false hne, isAbsolute_intercalate h, names_intercalate hne hslash]

/-- The shortest form of a path leads to the same place. -/
theorem place_clean (home : List String) (path : String) :
    place home (clean path) = place home path := by
  have hslash : ∀ n ∈ names path, '/' ∉ n.toList := fun _ => no_slash_of_mem_names
  have hnil : Reduced (isAbsolute path) [] := fun _ hn => absurd hn List.not_mem_nil
  have hreduced : Reduced (isAbsolute path)
      ((names path).foldl (step (isAbsolute path)) []).reverse := fun n hn =>
    reduced_foldl_step hnil hslash n (List.mem_reverse.1 hn)
  rw [clean, place_ofNames hreduced, foldl_follow_foldl_step _ hnil hslash]
  · rfl
  · intro habsolute
    rw [if_pos habsolute]

/-! ## Paths from the root -/

/-- A path from the root in shortest form. -/
def Rooted (path : String) : Prop := ∃ ns, (∀ n ∈ ns, Proper n) ∧ path = ofNames true ns

theorem reduced_of_proper (h : ∀ n ∈ ns, Proper n) : Reduced true ns :=
  fun n hn => ⟨(h n hn).no_slash, (h n hn).ne_empty, (h n hn).ne_dot, fun _ => (h n hn).ne_dots⟩

theorem place_of_proper (h : ∀ n ∈ ns, Proper n) (home : List String) :
    place home (ofNames true ns) = ns := by
  rw [place_ofNames (reduced_of_proper h), if_pos rfl, foldl_follow_of_proper h, List.nil_append]

theorem rooted_clean (h : isAbsolute path = true) : Rooted (clean path) := by
  have hnil : Reduced true [] := fun _ hn => absurd hn List.not_mem_nil
  have hreduced := reduced_foldl_step hnil fun n (hn : n ∈ names path) => no_slash_of_mem_names hn
  refine ⟨_, fun n hn => ?_, by rw [clean, h]⟩
  obtain ⟨hslash, hempty, hdot, hdots⟩ := hreduced n (List.mem_reverse.1 hn)
  exact ⟨hempty, hdot, hdots rfl, hslash⟩

/-- A path from the root in shortest form is the text of its place. -/
theorem Rooted.eq_ofNames (h : Rooted path) (home : List String) :
    path = ofNames true (place home path) := by
  obtain ⟨ns, hns, rfl⟩ := h
  rw [place_of_proper hns]

theorem isAbsolute_append {a : String} (ha : a ≠ "") (b : String) :
    isAbsolute (a ++ b) = isAbsolute a := by
  have hne : a.toList ≠ [] := fun hnil => ha (String.toList_eq_nil_iff.1 hnil)
  rw [isAbsolute, isAbsolute, String.toList_append, List.head?_append_of_ne_nil _ hne]

theorem ne_empty_of_isAbsolute (h : isAbsolute path = true) : path ≠ "" := by
  rintro rfl
  cases h

/-- A name that is joined to a path leads on from its place. -/
theorem place_join {a : String} (ha : a ≠ "") (h : Proper name) (home : List String) :
    place home (join a name) = place home a ++ [name] := by
  have hjoin : join a name = clean (a ++ "/" ++ name) := by
    rw [join, if_neg ha, if_neg h.ne_empty]
  rw [hjoin, place_clean, place, names_concat a h.no_slash, List.foldl_append, String.append_assoc,
    isAbsolute_append ha]
  exact follow_of_proper h _

theorem rooted_absolute {home : String} (h : isAbsolute home = true) (path : String) :
    Rooted (Path.absolute home path) := by
  have hne := ne_empty_of_isAbsolute h
  rw [Path.absolute]
  split
  next hpath => exact rooted_clean hpath
  next =>
    rw [join, if_neg hne]
    split
    · exact rooted_clean h
    · exact rooted_clean (by rwa [String.append_assoc, isAbsolute_append hne])

theorem intercalate_concat (hne : ns ≠ []) (name : String) :
    "/".intercalate (ns ++ [name]) = "/".intercalate ns ++ "/" ++ name := by
  induction ns with
  | nil => exact absurd rfl hne
  | cons n ns ih =>
    cases ns with
    | nil =>
      rw [List.singleton_append, String.intercalate_cons_cons, String.intercalate_singleton,
        String.intercalate_singleton]
    | cons n' ns =>
      have hmore := ih (List.cons_ne_nil n' ns)
      rw [List.cons_append] at hmore
      simp only [List.cons_append, String.intercalate_cons_cons] at hmore ⊢
      simp only [hmore, String.append_assoc]

/-- The path of a file begins with that of its folder. -/
theorem exists_append_ofNames (ns : List String) (name : String) :
    ∃ more, ofNames true (ns ++ [name]) = ofNames true ns ++ more := by
  by_cases hne : ns = []
  · subst hne
    exact ⟨name, by rw [ofNames_true, ofNames_true, List.nil_append, String.intercalate_singleton]; rfl⟩
  · exact ⟨"/" ++ name, by simp only [ofNames_true, intercalate_concat hne, String.append_assoc]⟩

/-- A path from the root that leads to a file has a last name. -/
theorem Rooted.exists_concat (h : Rooted path) {home : List String} (hne : place home path ≠ []) :
    ∃ ns name, (∀ n ∈ ns ++ [name], Proper n) ∧ path = ofNames true (ns ++ [name]) := by
  obtain ⟨ns, hns, rfl⟩ := h
  rw [place_of_proper hns] at hne
  obtain hnil | ⟨before, name, rfl⟩ := List.eq_nil_or_concat ns
  · exact absurd hnil hne
  · rw [List.concat_eq_append] at hns ⊢
    exact ⟨before, name, hns, rfl⟩

section

variable {ns : List String} {name : String} (h : ∀ n ∈ ns ++ [name], Proper n)

include h

theorem names_ofNames_concat : names (ofNames true (ns ++ [name])) = "" :: (ns ++ [name]) :=
  names_ofNames_true (by simp) fun n hn => (h n hn).no_slash

theorem base_ofNames : base (ofNames true (ns ++ [name])) = name := by
  have hempty : name ≠ "" := (h name (by simp)).ne_empty
  rw [base, if_neg (ne_empty_of_isAbsolute (isAbsolute_ofNames_true _)), names_ofNames_concat h]
  simp [hempty]

theorem parent_ofNames : parent (ofNames true (ns ++ [name])) = ofNames true ns := by
  have hns : ∀ n ∈ ns, Proper n := fun n hn => h n (List.mem_append_left _ hn)
  have hslash : ∀ n ∈ "" :: ns, '/' ∉ n.toList :=
    List.forall_mem_cons.2 ⟨by simp, fun n hn => (hns n hn).no_slash⟩
  have habsolute : isAbsolute ("/".intercalate ("" :: ns) ++ "/") = true := by
    cases ns with
    | nil => rfl
    | cons n ns =>
      rw [String.intercalate_cons_cons, String.empty_append, String.append_assoc,
        isAbsolute_append (by decide)]
      rfl
  -- the path up to the last name still ends in a slash, so it has an empty name in the end
  have hnames : names ("/".intercalate ("" :: ns) ++ "/") = "" :: ns ++ [""] := by
    have hconcat : names ("/".intercalate ("" :: ns) ++ "/" ++ "") = _ := names_concat _ (by simp)
    rwa [String.append_empty, names_intercalate (List.cons_ne_nil _ _) hslash] at hconcat
  have hplace : place [] ("/".intercalate ("" :: ns) ++ "/") = ns := by
    rw [place, hnames, habsolute, List.foldl_append]
    exact foldl_follow_of_proper hns []
  rw [parent, names_ofNames_concat h, ← List.cons_append, List.dropLast_concat,
    if_neg (List.cons_ne_nil _ _), (rooted_clean habsolute).eq_ofNames [], place_clean, hplace]

end

end Path

end MiniCompiler
