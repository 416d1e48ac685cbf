import Mathlib.Data.List.Nodup
import MiniCompiler.Golden.Suite
import MiniCompiler.Proofs.DiskFrame

/-!
# Records on the disk

The records of source files stand next to them, each at a place of its own, or in one folder, where files
with the same last name share a place (`Suite.recordPlace_eq`). After records were kept the last one for
a place stands there and all else is as it was (`Suite.find?_keepAll`).
-/

namespace MiniCompiler

/-! ## Files that match patterns -/

namespace Glob

theorem nodup_eraseDups (l : List String) : l.eraseDups.Nodup := by
  induction hn : l.length using Nat.strongRecOn generalizing l with
  | ind n ih =>
    cases l with
    | nil => exact List.nodup_nil
    | cons a l =>
      rw [List.eraseDups_cons, List.nodup_cons]
      refine ⟨by simp, ih _ ?_ _ rfl⟩
      have := List.length_filter_le (fun b => !b == a) l
      simp only [List.length_cons] at hn
      omega

theorem exists_of_bind_eq_ok {ε α β : Type} {x : Except ε α} {f : α → Except ε β} {b : β}
    (h : x >>= f = .ok b) : ∃ a, x = .ok a ∧ f a = .ok b := by
  cases x with
  | error e => cases h
  | ok a => exact ⟨a, rfl, h⟩

theorem exists_of_mapM_eq_ok {ε α β : Type} {f : α → Except ε β} {l : List α} {r : List β}
    (h : l.mapM f = .ok r) : ∀ b ∈ r, ∃ a ∈ l, f a = .ok b := by
  induction l generalizing r with
  | nil =>
    cases h
    simp
  | cons a l ih =>
    rw [List.mapM_cons] at h
    obtain ⟨b, ha, h⟩ := exists_of_bind_eq_ok h
    obtain ⟨bs, hl, h⟩ := exists_of_bind_eq_ok h
    cases h
    refine List.forall_mem_cons.2 ⟨⟨a, List.mem_cons_self, ha⟩, fun c hc => ?_⟩
    obtain ⟨a', ha', hc⟩ := ih hl c hc
    exact ⟨a', List.mem_cons_of_mem a ha', hc⟩

/-- The files that patterns match are given once, as paths from the root. -/
theorem files_rooted {d : Disk} {home : List String} {patterns : String} {sources : List String}
    (h : files d home patterns = .ok sources) :
    sources.Nodup ∧ ∀ source ∈ sources, Path.Rooted source := by
  obtain ⟨found, hfound, hsources⟩ := exists_of_bind_eq_ok h
  cases hsources
  refine ⟨nodup_eraseDups _, fun source hsource => ?_⟩
  have hlisted := (List.mem_filter.1 (List.mem_eraseDups.1 hsource)).1
  obtain ⟨paths, hpaths, hsource⟩ := List.mem_flatten.1 hlisted
  obtain ⟨word, -, hword⟩ := exists_of_mapM_eq_ok hfound paths hpaths
  dsimp only at hword
  split at hword
  next matched hmatched =>
    cases hword
    obtain ⟨path, -, rfl⟩ := List.mem_map.1 hsource
    exact Path.rooted_absolute (Path.isAbsolute_ofNames_true home) path
  next => cases hword

end Glob

namespace Golden

/-! ## The places of records -/

def recordName (name : String) : String := "." ++ name ++ ".json"

theorem proper_recordName {name : String} (h : '/' ∉ name.toList) : Path.Proper (recordName name) := by
  have htext : (recordName name).toList = '.' :: (name.toList ++ ['.', 'j', 's', 'o', 'n']) := by
    rw [recordName, String.toList_append, String.toList_append]
    rfl
  have hne : ∀ other : String, other.toList.length ≤ 2 → recordName name ≠ other := by
    rintro _ hlength rfl
    simp only [htext, List.length_cons, List.length_append] at hlength
    omega
  refine ⟨hne _ (by decide), hne _ (by decide), hne _ (by decide), ?_⟩
  simp [htext, h]

/-- The content of the file of a record. -/
def Record.bytes (r : Record) : Content := Text.encodeUtf8 r.toJson.write

/-- Is a record the one that is read from its file? -/
def Record.Readable (r : Record) : Prop := Record.ofText (Text.decodeUtf8 r.bytes) = .ok r

instance (r : Record) : Decidable r.Readable :=
  inferInstanceAs (Decidable (Record.ofText (Text.decodeUtf8 r.bytes) = .ok r))

theorem recordName_inj {name name' : String} : recordName name = recordName name' ↔ name = name' := by
  rw [recordName, recordName, String.append_left_inj, String.append_right_inj]

namespace Suite

/-- The place of the record of a source file. -/
def recordPlace (s : Suite) (source : String) : List String :=
  Path.place s.home (recordPath s.folder source)

/-- A record stands next to its source file or in the folder of the records, under the last name of the
    file. -/
theorem recordPlace_eq (s : Suite) {ns : List String} {name : String}
    (h : ∀ n ∈ ns ++ [name], Path.Proper n) : s.recordPlace (Path.ofNames true (ns ++ [name])) =
      (if s.folder = "" then ns else Path.place s.home s.folder) ++ [recordName name] := by
  have hname := proper_recordName (h name (by simp)).no_slash
  have hns : ∀ n ∈ ns, Path.Proper n := fun n hn => h n (List.mem_append_left _ hn)
  rw [recordPlace, recordPath, Path.base_ofNames h, Path.parent_ofNames h]
  change Path.place s.home (Path.join (if s.folder = "" then _ else _) (recordName name)) = _
  split
  · rw [Path.place_join (Path.ne_empty_of_isAbsolute (Path.isAbsolute_ofNames_true ns)) hname,
      Path.place_of_proper hns]
  next hfolder => rw [Path.place_join hfolder hname]

section

variable {s : Suite} {f g : String} {home home' : List String} (hf : Path.Rooted f)
  (hfile : Path.place home f ≠ []) (hg : Path.Rooted g) (hgfile : Path.place home' g ≠ [])

include hf hfile hg hgfile

/-- Next to the source files no two records share a place. -/
theorem recordPlace_inj (hfolder : s.folder = "") : s.recordPlace f = s.recordPlace g ↔ f = g := by
  obtain ⟨ns, name, hns, rfl⟩ := Path.Rooted.exists_concat hf hfile
  obtain ⟨ns', name', hns', rfl⟩ := Path.Rooted.exists_concat hg hgfile
  refine ⟨fun heq => ?_, fun heq => by rw [heq]⟩
  rw [recordPlace_eq s hns, recordPlace_eq s hns', if_pos hfolder, if_pos hfolder] at heq
  obtain ⟨rfl, hname⟩ := List.append_inj' heq rfl
  rw [List.singleton_inj, recordName_inj] at hname
  rw [hname]

/-- In a folder of the records, files with the same last name share a place. -/
theorem recordPlace_eq_iff (hfolder : s.folder ≠ "") :
    s.recordPlace f = s.recordPlace g ↔ Path.base f = Path.base g := by
  obtain ⟨ns, name, hns, rfl⟩ := Path.Rooted.exists_concat hf hfile
  obtain ⟨ns', name', hns', rfl⟩ := Path.Rooted.exists_concat hg hgfile
  rw [recordPlace_eq s hns, recordPlace_eq s hns', if_neg hfolder, if_neg hfolder,
    Path.base_ofNames hns, Path.base_ofNames hns', List.append_cancel_left_eq, List.singleton_inj,
    recordName_inj]

end

/-! ## Making records -/

/-- What the compiler does with a source file. It runs in the folder of the file. -/
def compiled (s : Suite) (d : Disk) (source : String) : Execution :=
  s.compiler d (Path.place s.home (Path.parent source))
    (s.arguments ++ ["--no-color", "-S", "-o", "-", Path.base source])

/-- The record of a source file that has a content. -/
def recordOf (s : Suite) (d : Disk) (source : String) (content : Content) : Record :=
  { sourceHash := hashText (s.digest content), compile := s.compiled d source }

section

variable {s : Suite} {d d' : Disk} {source : String} {r : Record} {content : Content}
  {e : String × Record} {source : String}

theorem fileHash_of_read (h : d.read s.home source = .ok content) :
    s.fileHash d source = .ok (hashText (s.digest content)) := by
  rw [fileHash, h]
  rfl

theorem record_of_read (hpath : Path.Rooted source) (h : d.read s.home source = .ok content) :
    s.record d source = .ok (s.recordOf d source content) := by
  rw [record, fileHash_of_read h, Disk.spot_parent hpath h]
  rfl

theorem read_of_record (h : s.record d source = .ok r) :
    ∃ content, d.read s.home source = .ok content := by
  obtain ⟨hash, hhash, -⟩ := Glob.exists_of_bind_eq_ok h
  obtain ⟨content, hcontent, -⟩ := Glob.exists_of_bind_eq_ok hhash
  exact ⟨content, hcontent⟩

end

/-! ## Keeping records -/

/-- The records that are made of source files, each on the disk that those before it leave. -/
def made (s : Suite) : Disk → List String → List (String × Record)
  | _, [] => []
  | d, source :: sources =>
    match s.record d source, s.keepRecord d source with
    | .ok r, .ok d => (source, r) :: s.made d sources
    | _, _ => []

/-- What one step of keeping records does: it makes a record, and writes it. -/
theorem keepAll_cons {s : Suite} {d d' : Disk} {sources : List String}
    (h : s.keepAll d (source :: sources) = .ok d') :
    ∃ r d₁, s.record d source = .ok r ∧
      d.write s.home (recordPath s.folder source) r.bytes = .ok d₁ ∧ s.keepAll d₁ sources = .ok d' ∧
      s.made d (source :: sources) = (source, r) :: s.made d₁ sources := by
  obtain ⟨d₁, hkeep, hrest⟩ := Glob.exists_of_bind_eq_ok h
  obtain ⟨r, hrecord, hwrite⟩ := Glob.exists_of_bind_eq_ok hkeep
  exact ⟨r, d₁, hrecord, hwrite, hrest, by simp only [made, hrecord, hkeep]⟩

/-- The record that stands at a place after some were made: the last one for the place. -/
def standing (s : Suite) (made : List (String × Record)) (way : List String) :
    Option (String × Record) :=
  (made.filter fun e => s.recordPlace e.1 = way).getLast?

theorem standing_cons (s : Suite) (e : String × Record) (made : List (String × Record))
    (way : List String) : s.standing (e :: made) way =
      (s.standing made way).or (if s.recordPlace e.1 = way then some e else none) := by
  rw [standing, standing, List.filter_cons]
  by_cases hway : s.recordPlace e.1 = way
  · rw [if_pos (decide_eq_true hway), if_pos hway, List.getLast?_cons]
    cases (made.filter fun e => s.recordPlace e.1 = way).getLast? <;> rfl
  · rw [if_neg (by simpa using hway), if_neg hway, Option.or_none]

theorem mem_of_standing {s : Suite} {made : List (String × Record)} {way : List String}
    (h : s.standing made way = some e) : e ∈ made ∧ s.recordPlace e.1 = way := by
  have hmem := List.mem_filter.1 (List.mem_of_getLast? h)
  exact ⟨hmem.1, of_decide_eq_true hmem.2⟩

theorem exists_standing (s : Suite) {made : List (String × Record)}
    (h : e ∈ made) : ∃ e', s.standing made (s.recordPlace e.1) = some e' := by
  have hmem : e ∈ made.filter fun e' => s.recordPlace e'.1 = s.recordPlace e.1 :=
    List.mem_filter.2 ⟨h, decide_eq_true rfl⟩
  exact ⟨_, List.getLast?_eq_some_getLast (List.ne_nil_of_mem hmem)⟩

section

variable {s : Suite} {d d' : Disk} {sources : List String}

section

variable (h : s.keepAll d sources = .ok d')

include h

theorem map_fst_made :
    (s.made d sources).map Prod.fst = sources := by
  induction sources generalizing d with
  | nil => rfl
  | cons source sources ih =>
    obtain ⟨r, d₁, -, -, hrest, hmade⟩ := keepAll_cons h
    rw [hmade, List.map_cons, ih hrest]

theorem mem_sources_of_mem_made
    (he : e ∈ s.made d sources) : e.1 ∈ sources := by
  rw [← map_fst_made h]
  exact List.mem_map_of_mem he

theorem exists_mem_made
    (hsource : source ∈ sources) : ∃ r, (source, r) ∈ s.made d sources := by
  rw [← map_fst_made h] at hsource
  obtain ⟨⟨_, r⟩, hmem, rfl⟩ := List.mem_map.1 hsource
  exact ⟨r, hmem⟩

theorem keepsFolders_keepAll : d.KeepsFolders d' := by
  induction sources generalizing d with
  | nil =>
    cases h
    exact fun _ hway => hway
  | cons source sources ih =>
    obtain ⟨r, d₁, -, hwrite, hrest, -⟩ := keepAll_cons h
    exact (Disk.keepsFolders_write hwrite).trans (ih hrest)

/-- After records were kept, the last one for a place stands there, and all else is as it was. -/
theorem find?_keepAll (way : List String) : d'.find? way =
    ((s.standing (s.made d sources) way).map fun e => .file e.2.bytes).or (d.find? way) := by
  induction sources generalizing d with
  | nil =>
    cases h
    rfl
  | cons source sources ih =>
    obtain ⟨r, d₁, -, hwrite, hrest, hmade⟩ := keepAll_cons h
    have hfind : d₁.find? way =
        if way = s.recordPlace source then some (.file r.bytes) else d.find? way :=
      Disk.find?_write hwrite way
    rw [ih hrest, hmade, standing_cons, hfind]
    -- a record that is kept later stands over the first one
    cases s.standing (s.made d₁ sources) way with
    | some e => rfl
    | none =>
      by_cases hway : s.recordPlace source = way
      · rw [if_pos hway.symm, if_pos hway]
        rfl
      · rw [if_neg (Ne.symm hway), if_neg hway]
        rfl

theorem sameOff_keepAll :
    d.SameOff (sources.map s.recordPlace) d' := by
  intro way hway
  cases hstanding : s.standing (s.made d sources) way with
  | none =>
    rw [find?_keepAll h, hstanding]
    rfl
  | some e =>
    obtain ⟨hmem, rfl⟩ := mem_of_standing hstanding
    rw [← map_fst_made h, List.map_map] at hway
    exact absurd (List.mem_map_of_mem hmem) hway

/-- The record of a file was made on a disk with the same folders and files, and its path leads to no
    folder there. -/
theorem exists_disk_of_mem_made {r : Record} (hmem : (source, r) ∈ s.made d sources) :
    ∃ d₁ spot, d.SameOff (sources.map s.recordPlace) d₁ ∧ d₁.KeepsFolders d' ∧
      s.record d₁ source = .ok r ∧ d₁.spot s.home (recordPath s.folder source) = .ok spot ∧
      spot.found? ≠ some .folder := by
  induction sources generalizing d with
  | nil => cases hmem
  | cons first sources ih =>
    obtain ⟨r₁, d₁, hrecord, hwrite, hrest, hmade⟩ := keepAll_cons h
    rw [hmade] at hmem
    obtain heq | hmem := List.mem_cons.1 hmem
    · cases heq
      obtain ⟨spot, hspot, hfolder, -⟩ := Disk.write_cases hwrite
      exact ⟨d, spot, fun _ _ => rfl, keepsFolders_keepAll h, hrecord, hspot, hfolder⟩
    · obtain ⟨d₂, spot, hsame, hkeeps, hmade, hspot, hfolder⟩ := ih hrest hmem
      refine ⟨d₂, spot, fun way hway => ?_, hkeeps, hmade, hspot, hfolder⟩
      rw [List.map_cons, List.mem_cons, not_or] at hway
      rw [hsame way hway.2, Disk.find?_write hwrite way]
      exact if_neg hway.1

end

end

end Suite

end Golden

end MiniCompiler
