import MiniCompiler.Disk
import MiniCompiler.Proofs.PathPlaces

/-!
# What stays on a disk

A walk that comes to an end comes to the place of its path, and a later walk comes there again as long
as the folders stay (`Disk.spot_file_again`). A file that is written stands at the place of its path, and
all else is as it was (`Disk.find?_write`).
-/

namespace MiniCompiler

/-- The way to a spot. -/
def Spot.way : Spot → List String
  | .folder way | .file way _ | .free way => way

def Spot.found? : Spot → Option DiskEntry
  | .folder _ => some .folder
  | .file _ content => some (.file content)
  | .free _ => none

namespace Disk

variable {d : Disk} {s : Spot} {way ns : List String}

/-- The folders of `d` are folders of `d'`. -/
def KeepsFolders (d d' : Disk) : Prop :=
  ∀ way, d.find? way = some .folder → d'.find? way = some .folder

/-- Two disks are the same but for some places. -/
def SameOff (ways : List (List String)) (d d' : Disk) : Prop :=
  ∀ way, way ∉ ways → d'.find? way = d.find? way

theorem KeepsFolders.refl (d : Disk) : KeepsFolders d d := fun _ h => h

theorem KeepsFolders.trans {d' d'' : Disk} (h : KeepsFolders d d') (h' : KeepsFolders d' d'') :
    KeepsFolders d d'' := fun way hway => h' way (h way hway)

/-! ## Walks -/

/-- One step of a walk: it leads on, whatever comes next and also when the folders are kept, or it ends
    at the last name. -/
theorem walk_step {d' : Disk} (hkeeps : KeepsFolders d d') {rest : List String} {name : String}
    (h : d.walk way (name :: rest) = .ok s) : (d.walk (Path.follow way name) rest = .ok s ∧
      ∀ rest', d'.walk way (name :: rest') = d'.walk (Path.follow way name) rest') ∨
    (rest = [] ∧ s.way = Path.follow way name ∧ d.find? s.way = s.found? ∧
      ∀ content, d'.find? s.way = some (.file content) →
        d'.walk way [name] = .ok (.file s.way content)) := by
  by_cases hskip : name = "" ∨ name = "."
  · have hfollow : Path.follow way name = way := if_pos hskip
    rw [walk, if_pos hskip] at h
    rw [hfollow]
    exact .inl ⟨h, fun rest' => by rw [walk, if_pos hskip]⟩
  by_cases hdots : name = ".."
  · have hfollow : Path.follow way name = way.dropLast := by
      rw [Path.follow, if_neg hskip, if_pos hdots]
    rw [walk, if_neg hskip, if_pos hdots] at h
    rw [hfollow]
    exact .inl ⟨h, fun rest' => by rw [walk, if_neg hskip, if_pos hdots]⟩
  have hfollow : Path.follow way name = way ++ [name] := by
    rw [Path.follow, if_neg hskip, if_neg hdots]
  rw [hfollow]
  by_cases hlong : longestName < name.utf8ByteSize
  · rw [walk, if_neg hskip, if_neg hdots, if_pos hlong] at h
    cases h
  -- Beyond these names it is the entry at the next place that decides.
  have hfile : ∀ content, d'.find? (way ++ [name]) = some (.file content) →
      d'.walk way [name] = .ok (.file (way ++ [name]) content) := by
    intro content hfound
    simp [walk, hskip, hdots, hlong, hfound]
  simp only [walk, hskip, hdots, hlong, if_false] at h
  cases hfind : d.find? (way ++ [name]) with
  | none =>
    simp only [hfind] at h
    split at h
    · cases h
      exact .inr ⟨‹_›, rfl, hfind, hfile⟩
    · cases h
  | some entry =>
    cases entry with
    | folder =>
      simp only [hfind] at h
      refine .inl ⟨h, fun rest' => ?_⟩
      simp only [walk, hskip, hdots, hlong, if_false, hkeeps _ hfind]
    | file content =>
      simp only [hfind] at h
      split at h
      · cases h
        exact .inr ⟨‹_›, rfl, hfind, hfile⟩
      · cases h

/-- A walk goes the way of its names. -/
theorem way_of_walk (h : d.walk way ns = .ok s) : s.way = ns.foldl Path.follow way := by
  induction ns generalizing way with
  | nil =>
    cases h
    rfl
  | cons n ns ih =>
    obtain ⟨h, -⟩ | ⟨rfl, hway, -⟩ := walk_step (KeepsFolders.refl d) h
    · exact ih h
    · exact hway

/-- A walk to a file, or to where one can be made, comes to the file that is there later. -/
theorem walk_file_again {d' : Disk} (hkeeps : KeepsFolders d d') (h : d.walk way ns = .ok s)
    (hs : s.found? ≠ some .folder) {content : Content}
    (hfound : d'.find? s.way = some (.file content)) :
    d'.walk way ns = .ok (.file s.way content) := by
  induction ns generalizing way with
  | nil =>
    cases h
    exact absurd rfl hs
  | cons n ns ih =>
    obtain ⟨h, heq⟩ | ⟨rfl, -, -, hfile⟩ := walk_step hkeeps h
    · rw [heq]
      exact ih h
    · exact hfile content hfound

/-- What stands at the end of a walk that does not end in a folder. -/
theorem find?_of_walk (h : d.walk way ns = .ok s) (hs : s.found? ≠ some .folder) :
    d.find? s.way = s.found? := by
  induction ns generalizing way with
  | nil =>
    cases h
    exact absurd rfl hs
  | cons n ns ih =>
    obtain ⟨h, -⟩ | ⟨-, -, hfind, -⟩ := walk_step (KeepsFolders.refl d) h
    · exact ih h
    · exact hfind

/-- The names before the last ones lead to a folder. -/
theorem walk_append {rest : List String} (hrest : rest ≠ []) (h : d.walk way (ns ++ rest) = .ok s) :
    d.walk way ns = .ok (.folder (ns.foldl Path.follow way)) := by
  induction ns generalizing way with
  | nil => rw [walk, List.foldl_nil]
  | cons n ns ih =>
    obtain ⟨h, heq⟩ | ⟨hnil, -⟩ := walk_step (KeepsFolders.refl d) h
    · rw [heq]
      exact ih h
    · exact absurd (List.append_eq_nil_iff.1 hnil).2 hrest

/-! ## Paths -/

/-- A path that can be followed: it has no character NUL, is not too long and not empty. -/
def Followable (path : String) : Prop :=
  path.toList.contains '\x00' = false ∧ path.utf8ByteSize ≤ longestPath ∧ path ≠ ""

theorem spot_eq_walk {path : String} (h : Followable path) (d : Disk) (home : List String) :
    d.spot home path = d.walk (if Path.isAbsolute path then [] else home) (Path.names path) := by
  obtain ⟨hnul, hsize, hne⟩ := h
  rw [spot, hnul, if_neg Bool.false_ne_true, if_neg (Nat.not_lt.2 hsize), if_neg hne]

theorem followable_of_spot {home : List String} {path : String} (h : d.spot home path = .ok s) :
    Followable path := by
  rw [spot] at h
  split at h
  · cases h
  split at h
  · cases h
  split at h
  · cases h
  next hnul hsize hne => exact ⟨by simpa using hnul, Nat.not_lt.1 hsize, hne⟩

section

variable {d d' : Disk} {home : List String} {path : String} {s : Spot}
variable {content : Content}

/-- A path that leads somewhere leads to its place. -/
theorem way_of_spot (h : d.spot home path = .ok s) : s.way = Path.place home path := by
  rw [spot_eq_walk (followable_of_spot h)] at h
  exact way_of_walk h

theorem spot_file_again (hkeeps : KeepsFolders d d') (h : d.spot home path = .ok s)
    (hs : s.found? ≠ some .folder) (hfound : d'.find? (Path.place home path) = some (.file content)) :
    d'.spot home path = .ok (.file (Path.place home path) content) := by
  have hpath := followable_of_spot h
  rw [← way_of_spot h] at hfound ⊢
  rw [spot_eq_walk hpath] at h ⊢
  exact walk_file_again hkeeps h hs hfound

theorem find?_of_spot (h : d.spot home path = .ok s) (hs : s.found? ≠ some .folder) :
    d.find? (Path.place home path) = s.found? := by
  rw [← way_of_spot h]
  rw [spot_eq_walk (followable_of_spot h)] at h
  exact find?_of_walk h hs

/-! ## Reading and writing -/

theorem read_of_spot {w : List String} (h : d.spot home path = .ok (.file w content)) :
    d.read home path = .ok content := by
  rw [read, h]

theorem spot_of_read (h : d.read home path = .ok content) :
    d.spot home path = .ok (.file (Path.place home path) content) := by
  rw [read] at h
  split at h
  next w c hspot =>
    cases h
    have hway := way_of_spot hspot
    rw [hspot, ← hway]
    rfl
  all_goals cases h

/-- Reading by a name in a folder depends on what has the name there. -/
theorem read_name {name : String} (hname : Path.Proper name)
    (hsame : d'.find? (home ++ [name]) = d.find? (home ++ [name])) :
    d'.read home name = d.read home name := by
  have hnames : Path.names name = [name] := by
    rw [Path.names, Text.splitAt_eq_singleton hname.no_slash, List.map_singleton, String.ofList_toList]
  have hrelative : Path.isAbsolute name = false := by
    rw [Path.isAbsolute, beq_eq_false_iff_ne]
    exact fun hfirst => hname.no_slash (List.mem_of_mem_head? hfirst)
  have hspot : d'.spot home name = d.spot home name := by
    rw [spot, spot, hnames, hrelative]
    simp [walk, hname.ne_empty, hname.ne_dot, hname.ne_dots, hsame]
  rw [read, read, hspot]

/-- A file that was read is read again, if the folders are kept and so is what stands at its place. -/
theorem read_again (hkeeps : KeepsFolders d d') (h : d.read home path = .ok content)
    (hsame : d'.find? (Path.place home path) = d.find? (Path.place home path)) :
    d'.read home path = .ok content := by
  have hspot := spot_of_read h
  have hfile : (Spot.file (Path.place home path) content).found? ≠ some .folder := by rintro ⟨⟩
  exact read_of_spot (spot_file_again hkeeps hspot hfile (hsame.trans (find?_of_spot hspot hfile)))

theorem find?_put {way : List String} (hway : way ≠ []) (entry : DiskEntry) (d : Disk)
    (other : List String) :
    (put way entry d).find? other = if other = way then some entry else d.find? other := by
  rw [find?, find?, lookup_put]
  by_cases hroot : other = []
  · subst hroot
    rw [if_pos rfl, if_neg (Ne.symm hway), if_pos rfl]
  · rw [if_neg hroot, if_neg hroot]

theorem target_cases {way : List String} (h : d.target home path = .ok way) :
    ∃ s, d.spot home path = .ok s ∧ s.found? ≠ some .folder ∧ s.way = way := by
  unfold target at h
  by_cases hbare : withoutSlashes path = path
  · simp only [hbare, if_true, ite_self] at h
    cases hspot : d.spot home path with
    | error fault =>
      rw [hspot] at h
      cases h
    | ok s =>
      rw [hspot] at h
      cases s with
      | folder w => cases h
      | file w content => exact ⟨_, rfl, by rintro ⟨⟩, Except.ok.inj h⟩
      | free w => exact ⟨_, rfl, by rintro ⟨⟩, Except.ok.inj h⟩
  · simp only [hbare, if_false] at h
    cases hspot : d.spot home (if withoutSlashes path = "" then path else withoutSlashes path) with
    | error fault =>
      rw [hspot] at h
      cases h
    | ok s =>
      rw [hspot] at h
      cases s <;> cases h

/-- What writing a file does: its path leads to no folder, and the file stands at its place then. -/
theorem write_cases (h : d.write home path content = .ok d') :
    ∃ s, d.spot home path = .ok s ∧ s.found? ≠ some .folder ∧
      d' = put (Path.place home path) (.file content) d := by
  unfold write at h
  split at h
  next way htarget =>
    obtain ⟨s, hspot, hs, hway⟩ := target_cases htarget
    cases h
    exact ⟨s, hspot, hs, by rw [← hway, way_of_spot hspot]⟩
  next => cases h

theorem place_ne_nil (h : d.spot home path = .ok s) (hs : s.found? ≠ some .folder) :
    Path.place home path ≠ [] := by
  intro hnil
  have hfind := find?_of_spot h hs
  rw [hnil] at hfind
  exact hs hfind.symm

/-- Writing changes the place of the path and nothing else. -/
theorem find?_write (h : d.write home path content = .ok d') (other : List String) :
    d'.find? other =
      if other = Path.place home path then some (.file content) else d.find? other := by
  obtain ⟨s, hspot, hs, rfl⟩ := write_cases h
  exact find?_put (place_ne_nil hspot hs) _ d other

theorem keepsFolders_write (h : d.write home path content = .ok d') : KeepsFolders d d' := by
  intro way hway
  obtain ⟨s, hspot, hs, -⟩ := write_cases h
  rw [find?_write h, if_neg]
  · exact hway
  · rintro rfl
    exact hs ((find?_of_spot hspot hs).symm.trans hway)

theorem followable_append {more : String} (h : Followable (path ++ more)) (hne : path ≠ "") :
    Followable path := by
  obtain ⟨hnul, hsize, -⟩ := h
  rw [String.toList_append] at hnul
  rw [String.utf8ByteSize_append] at hsize
  exact ⟨by simp_all, by omega, hne⟩

/-- The folder of a file that can be read. -/
theorem spot_parent (hpath : Path.Rooted path) (h : d.read home path = .ok content) :
    d.spot home (Path.parent path) = .ok (.folder (Path.place home (Path.parent path))) := by
  have hspot := spot_of_read h
  have hfollowable := followable_of_spot hspot
  obtain ⟨ns, name, hns, rfl⟩ := Path.Rooted.exists_concat hpath (place_ne_nil hspot (by rintro ⟨⟩))
  have habsolute := Path.isAbsolute_ofNames_true ns
  have hparent : Followable (Path.ofNames true ns) := by
    obtain ⟨more, hmore⟩ := Path.exists_append_ofNames ns name
    rw [hmore] at hfollowable
    exact followable_append hfollowable (Path.ne_empty_of_isAbsolute habsolute)
  rw [spot_eq_walk hfollowable, Path.isAbsolute_ofNames_true, Path.names_ofNames_concat hns,
    ← List.cons_append] at hspot
  have hwalk := walk_append (List.cons_ne_nil name []) hspot
  rw [Path.parent_ofNames hns, spot_eq_walk hparent, Path.place, habsolute]
  by_cases hne : ns = []
  · subst hne
    rfl
  · rwa [Path.names_ofNames_true hne fun n hn => (hns n (List.mem_append_left _ hn)).no_slash]

end

end Disk

end MiniCompiler
