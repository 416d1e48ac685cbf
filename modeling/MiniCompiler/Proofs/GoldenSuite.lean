import MiniCompiler.Proofs.GoldenRecords

/-!
# Tests after records were made

Source files whose records were just made are tested against them. Every file gets one result, and no
test ends in an error. A file is skipped if one before it has the same content. Else it passes, unless
another record was kept in the place of its own: that happens only in a folder of the records, to files
with the same last name (`Suite.testAll_recorded`).
-/

namespace MiniCompiler.Golden

variable {f : String} {s : Suite} {sources : List String} {made : List (String × Record)}
  {r : Record} {d : Disk}

/-! ## Differences -/

/-- What an execution comes to, but for the time it took. -/
def Execution.output (e : Execution) : String × String × Int := (e.stdout, e.stderr, e.exitCode)

/-- What a test compares of a record. -/
def Record.essence (r : Record) : String × String × String × Int := (r.sourceHash, r.compile.output)

theorem ite_eq_empty_iff {p : Prop} [Decidable p] {text : String} (h : text ≠ "") :
    (if p then "" else text) = "" ↔ p := by
  split
  next hp => exact ⟨fun _ => hp, fun _ => rfl⟩
  next hp => exact ⟨fun htext => absurd htext h, fun hp' => absurd hp' hp⟩

theorem Execution.outputDiff_eq_empty_iff {d : TextDiff} {stage channel want got : String} :
    outputDiff d stage channel want got = "" ↔ want = got := by
  rw [outputDiff, ite_eq_empty_iff (by simp), d.text_eq_empty_iff]

/-- Nothing is different in a comparison if the outputs are the same and there was time enough. -/
theorem Execution.compare_eq_empty_iff {d : TextDiff} {stage : String} {want got : Execution} :
    compare d stage want got = "" ↔ want.output = got.output ∧ got.timedOut = false := by
  have hexit : (if want.exitCode = got.exitCode then ""
      else stage ++ ": exit code " ++ toString got.exitCode ++ ", want " ++ toString want.exitCode ++
        "\n") = "" ↔ want.exitCode = got.exitCode := ite_eq_empty_iff (by simp)
  have htime : (if got.timedOut then stage ++ ": timed out\n" else "") = "" ↔ got.timedOut = false := by
    cases got.timedOut <;> simp
  rw [compare, String.append_eq_empty_iff, String.append_eq_empty_iff, String.append_eq_empty_iff,
    hexit, htime, outputDiff_eq_empty_iff, outputDiff_eq_empty_iff, output, output, Prod.mk.injEq,
    Prod.mk.injEq]
  tauto

theorem Suite.difference_eq_empty_iff {want got : Record} :
    s.difference want got = "" ↔ want.essence = got.essence ∧ got.compile.timedOut = false := by
  rw [difference, String.append_eq_empty_iff, ite_eq_empty_iff (by decide),
    Execution.compare_eq_empty_iff]
  simp only [Record.essence, Prod.mk.injEq, and_assoc]

namespace Suite

/-! ## One test -/

/-- A compiler whose outputs for some source files do not depend on their records: on every disk that is
    the same but for the records it comes to the same end, and in time. -/
structure Steady (s : Suite) (d : Disk) (sources : List String) : Prop where
  sameOutput : ∀ f ∈ sources, ∀ d', d.SameOff (sources.map s.recordPlace) d' →
    (s.compiled d' f).output = (s.compiled d f).output
  inTime : ∀ f ∈ sources, ∀ d', d.SameOff (sources.map s.recordPlace) d' →
    (s.compiled d' f).timedOut = false

/-- No source file is a record. -/
def Apart (s : Suite) (sources : List String) : Prop :=
  ∀ f ∈ sources, ∀ g ∈ sources, Path.place s.home f ≠ s.recordPlace g

theorem Apart.place_not_mem (h : s.Apart sources)
    (hf : f ∈ sources) : Path.place s.home f ∉ sources.map s.recordPlace := by
  intro hrecorded
  obtain ⟨g, hg, heq⟩ := List.mem_map.1 hrecorded
  exact h f hf g hg heq.symm

/-- Was another record kept in the place of that of a file? In a folder of the records the last one with
    the same last name stands. -/
def Overwritten (s : Suite) (made : List (String × Record)) (f : String) : Prop :=
  s.folder ≠ "" ∧ ∃ r g r', (f, r) ∈ made ∧
    (made.filter fun e => Path.base e.1 = Path.base f).getLast? = some (g, r') ∧ r'.essence ≠ r.essence

/-- What a test of a file after records were made gives. -/
inductive Outcome (s : Suite) (made : List (String × Record)) (f : String) : TestResult → Prop
  | pass (hown : ¬ s.Overwritten made f) : Outcome s made f { file := f, status := .pass }
  | fail {diff : String} (hover : s.Overwritten made f) :
      Outcome s made f
        { file := f, status := .fail, message := "Output does not match the golden file", diff }

/-- A record that stands on the disk and is readable is the one that is kept. -/
theorem kept_of_read
    (hread : d.read s.home (recordPath s.folder f) = .ok r.bytes) (hr : r.Readable) :
    s.kept d f = .ok r := by
  rw [Record.Readable] at hr
  simp only [kept, hread, hr]

/-- The records of different source files were made, and can be read back. The files are no records, and
    the compiler does not depend on records. -/
structure Recorded (s : Suite) (d : Disk) (sources : List String) (d' : Disk) : Prop where
  nodup : sources.Nodup
  rooted : ∀ f ∈ sources, Path.Rooted f
  apart : s.Apart sources
  steady : s.Steady d sources
  keepAll_eq : s.keepAll d sources = .ok d'
  readable : ∀ e ∈ s.made d sources, e.2.Readable

namespace Recorded

variable {s : Suite} {d d' : Disk} {sources : List String} (h : s.Recorded d sources d')

include h

/-- A file whose record was made is as it was, and so is its record but for the time. -/
theorem record_again (hmem : (f, r) ∈ s.made d sources) :
    ∃ content got, d'.read s.home f = .ok content ∧ s.record d' f = .ok got ∧
      r.essence = got.essence ∧ got.compile.timedOut = false := by
  have hf : f ∈ sources := mem_sources_of_mem_made h.keepAll_eq hmem
  obtain ⟨d₁, spot, hsame, hkeeps, hrecord, -, -⟩ := exists_disk_of_mem_made h.keepAll_eq hmem
  obtain ⟨content, hcontent⟩ := read_of_record hrecord
  have hsame' := sameOff_keepAll h.keepAll_eq
  have hplace := h.apart.place_not_mem hf
  have hagain : d'.read s.home f = .ok content :=
    Disk.read_again hkeeps hcontent ((hsame' _ hplace).trans (hsame _ hplace).symm)
  obtain rfl : r = s.recordOf d₁ f content :=
    Except.ok.inj (hrecord.symm.trans (record_of_read (h.rooted f hf) hcontent))
  refine ⟨content, s.recordOf d' f content, hagain, record_of_read (h.rooted f hf) hagain, ?_,
    h.steady.inTime f hf d' hsame'⟩
  have houtput :=
    (h.steady.sameOutput f hf d₁ hsame).trans (h.steady.sameOutput f hf d' hsame').symm
  exact congrArg (Prod.mk _) houtput

theorem place_ne_nil (hmem : (f, r) ∈ s.made d sources) :
    Path.place s.home f ≠ [] := by
  obtain ⟨content, got, hread, -⟩ := h.record_again hmem
  exact Disk.place_ne_nil (Disk.spot_of_read hread) (by rintro ⟨⟩)

/-- The record that is read for a file disagrees with its own exactly if another one was kept in its
    place. -/
theorem overwritten_iff {f g : String} {r r' : Record} (hmem : (f, r) ∈ s.made d sources)
    (hstanding : s.standing (s.made d sources) (s.recordPlace f) = some (g, r')) :
    s.Overwritten (s.made d sources) f ↔ r'.essence ≠ r.essence := by
  have hrooted : ∀ e ∈ s.made d sources, Path.Rooted e.1 := fun e he =>
    h.rooted e.1 (mem_sources_of_mem_made h.keepAll_eq he)
  have hplace : ∀ e ∈ s.made d sources, Path.place s.home e.1 ≠ [] := fun e he => h.place_ne_nil he
  have hunique : ∀ r₁, (f, r₁) ∈ s.made d sources → r₁ = r := by
    intro r₁ hmem₁
    have hnodup := h.nodup
    rw [← map_fst_made h.keepAll_eq] at hnodup
    exact congrArg Prod.snd (List.inj_on_of_nodup_map hnodup hmem₁ hmem rfl)
  obtain ⟨hg, hgplace⟩ := mem_of_standing hstanding
  by_cases hfolder : s.folder = ""
  -- Next to the files each record has its own place, so the one that stands there is the file's own.
  · have hgf : g = f := (recordPlace_inj (hrooted _ hg) (hplace _ hg) (hrooted _ hmem) (hplace _ hmem)
      hfolder).1 hgplace
    subst hgf
    rw [hunique r' hg]
    exact ⟨fun hover => absurd hfolder hover.1, fun hother => absurd rfl hother⟩
  -- In a folder the records of a place are those of a last name.
  · have hfilter : ((s.made d sources).filter fun e => Path.base e.1 = Path.base f) =
        (s.made d sources).filter fun e => s.recordPlace e.1 = s.recordPlace f := by
      refine List.filter_congr fun e he => decide_eq_decide.2 ?_
      exact (recordPlace_eq_iff (hrooted e he) (hplace e he) (hrooted _ hmem) (hplace _ hmem)
        hfolder).symm
    rw [Overwritten, hfilter]
    constructor
    · rintro ⟨-, r₁, g₁, r₁', hmem₁, hlast, hother⟩
      cases hlast.symm.trans hstanding
      rwa [← hunique r₁ hmem₁]
    · exact fun hother => ⟨hfolder, r, g, r', hmem, hstanding, hother⟩

/-- The record that is kept of a file is the last one that was made for its place. -/
theorem kept_eq (hmem : (f, r) ∈ s.made d sources) :
    ∃ g r', s.standing (s.made d sources) (s.recordPlace f) = some (g, r') ∧ s.kept d' f = .ok r' := by
  obtain ⟨⟨g, r'⟩, hstanding⟩ := exists_standing s hmem
  obtain ⟨d₁, spot, -, hkeeps, -, hspot, hfolder⟩ := exists_disk_of_mem_made h.keepAll_eq hmem
  have hfind : d'.find? (s.recordPlace f) = some (.file r'.bytes) := by
    rw [find?_keepAll h.keepAll_eq, hstanding]
    rfl
  have hbytes : d'.read s.home (recordPath s.folder f) = .ok r'.bytes :=
    Disk.read_of_spot (Disk.spot_file_again hkeeps hspot hfolder hfind)
  exact ⟨g, r', hstanding, kept_of_read hbytes (h.readable (g, r') (mem_of_standing hstanding).1)⟩

/-- A test of a file whose record was made: it passes, unless another record was kept in its place. -/
theorem outcome_test (hf : f ∈ sources) :
    s.Outcome (s.made d sources) f (s.test d' f) := by
  obtain ⟨r, hmem⟩ := exists_mem_made h.keepAll_eq hf
  obtain ⟨g, r', hstanding, hkept⟩ := h.kept_eq hmem
  obtain ⟨-, got, -, hgot, hagain, htime⟩ := h.record_again hmem
  have hover := h.overwritten_iff hmem hstanding
  simp only [test, hkept, hgot]
  by_cases hsame : r'.essence = r.essence
  · rw [if_pos (difference_eq_empty_iff.2 ⟨hsame.trans hagain, htime⟩)]
    exact .pass fun hlost => hover.1 hlost hsame
  · rw [if_neg fun hdiff => hsame ((difference_eq_empty_iff.1 hdiff).1.trans hagain.symm)]
    exact .fail (hover.2 hsame)

end Recorded

/-! ## All tests -/

/-- What a test of a file gives after its record was made, where the files in `before` were tested
    before. -/
inductive Verdict (s : Suite) (d : Disk) (made : List (String × Record)) (before : List String)
    (f : String) : TestResult → Prop
  | seen {g hash : String} (hg : g ∈ before) (hfirst : s.fileHash d g = .ok hash)
      (hsame : s.fileHash d f = .ok hash) :
      Verdict s d made before f
        { file := f, status := .skip, message := "Content is identical to " ++ g }
  | tested {r : TestResult} (hnew : ∀ g ∈ before, s.fileHash d g ≠ s.fileHash d f)
      (hr : s.Outcome made f r) : Verdict s d made before f r

/-- The digests that were seen are those of the files that were tested before. -/
structure HasSeen (s : Suite) (d : Disk) (before : List String) (seen : List (String × String)) :
    Prop where
  of_lookup : ∀ {hash g}, seen.lookup hash = some g → g ∈ before ∧ s.fileHash d g = .ok hash
  of_mem : ∀ {hash g}, g ∈ before → s.fileHash d g = .ok hash → seen.lookup hash ≠ none

section

variable {s : Suite} {d : Disk} {made : List (String × Record)}

/-- One step through the files: a verdict on the first one, and its digest was seen then. -/
theorem testAll_step {before fs : List String} {seen : List (String × String)} {f hash : String}
    (hseen : s.HasSeen d before seen) (hhash : s.fileHash d f = .ok hash)
    (htest : s.Outcome made f (s.test d f)) :
    ∃ r seen', s.testAll d [] seen (f :: fs) = r :: s.testAll d [] seen' fs ∧
      s.Verdict d made before f r ∧ s.HasSeen d (before ++ [f]) seen' := by
  cases hlookup : seen.lookup hash with
  | some first =>
    have hstep : s.testAll d [] seen (f :: fs) =
        { file := f, status := .skip, message := "Content is identical to " ++ first } ::
          s.testAll d [] seen fs := by
      simp only [testAll, List.not_mem_nil, if_false, hhash, hlookup]
    obtain ⟨hfirst, hsame⟩ := hseen.of_lookup hlookup
    refine ⟨_, seen, hstep, .seen hfirst hsame hhash, ⟨fun h => ?_, fun hg h => ?_⟩⟩
    · obtain ⟨hg, h⟩ := hseen.of_lookup h
      exact ⟨List.mem_append_left _ hg, h⟩
    · obtain hg | hg := List.mem_append.1 hg
      · exact hseen.of_mem hg h
      · cases List.mem_singleton.1 hg
        cases hhash.symm.trans h
        rw [hlookup]
        exact Option.some_ne_none first
  | none =>
    have hstep : s.testAll d [] seen (f :: fs) =
        s.test d f :: s.testAll d [] ((hash, f) :: seen) fs := by
      simp only [testAll, List.not_mem_nil, if_false, hhash, hlookup]
    have hnew : ∀ g ∈ before, s.fileHash d g ≠ s.fileHash d f := by
      intro g hg hsame
      exact hseen.of_mem hg (hsame.trans hhash) hlookup
    refine ⟨_, (hash, f) :: seen, hstep, .tested hnew htest,
      ⟨fun {hash' g} h => ?_, fun {hash' g} hg h => ?_⟩⟩
    · by_cases heq : hash' = hash
      · subst heq
        rw [List.lookup_cons_self] at h
        cases h
        exact ⟨by simp, hhash⟩
      · rw [List.lookup_cons, beq_eq_false_iff_ne.2 heq] at h
        obtain ⟨hg, h⟩ := hseen.of_lookup h
        exact ⟨List.mem_append_left _ hg, h⟩
    · by_cases heq : hash' = hash
      · subst heq
        rw [List.lookup_cons_self]
        exact Option.some_ne_none f
      · rw [List.lookup_cons, beq_eq_false_iff_ne.2 heq]
        obtain hg | hg := List.mem_append.1 hg
        · exact hseen.of_mem hg h
        · cases List.mem_singleton.1 hg
          exact absurd (Except.ok.inj (h.symm.trans hhash)) heq

/-- Every file gets a verdict, in order. -/
theorem testAll_verdicts {before fs : List String} {seen : List (String × String)}
    (hseen : s.HasSeen d before seen) (hhash : ∀ f ∈ fs, ∃ hash, s.fileHash d f = .ok hash)
    (htest : ∀ f ∈ fs, s.Outcome made f (s.test d f)) :
    (s.testAll d [] seen fs).length = fs.length ∧
      ∀ i f, fs[i]? = some f →
        ∃ r, (s.testAll d [] seen fs)[i]? = some r ∧ s.Verdict d made (before ++ fs.take i) f r := by
  induction fs generalizing before seen with
  | nil => exact ⟨rfl, fun i f h => absurd h (by simp)⟩
  | cons f fs ih =>
    obtain ⟨hash, hfirst⟩ := hhash f List.mem_cons_self
    obtain ⟨r, seen', hstep, hverdict, hseen'⟩ :=
      testAll_step hseen hfirst (htest f List.mem_cons_self)
    obtain ⟨hlength, hverdicts⟩ := ih hseen' (fun g hg => hhash g (List.mem_cons_of_mem f hg))
      fun g hg => htest g (List.mem_cons_of_mem f hg)
    rw [hstep]
    refine ⟨by rw [List.length_cons, List.length_cons, hlength], fun i g hg => ?_⟩
    cases i with
    | zero =>
      cases hg
      exact ⟨r, rfl, by simpa using hverdict⟩
    | succ i =>
      obtain ⟨r', hr', hverdict'⟩ := hverdicts i g hg
      exact ⟨r', hr', by simpa using hverdict'⟩

end

/-! ## Compilers that read one file -/

/-- A compiler whose output depends on the folder, the arguments and the file that is named last. -/
def DependsOnFile (compiler : Compiler) : Prop :=
  ∀ d d' home arguments, d.read home (arguments.getLastD "") = d'.read home (arguments.getLastD "") →
    (compiler d home arguments).output = (compiler d' home arguments).output

theorem steady_of_dependsOnFile (h : DependsOnFile s.compiler)
    (hends : ∀ d home arguments, (s.compiler d home arguments).timedOut = false)
    (hroot : ∀ f ∈ sources, Path.Rooted f ∧ Path.place s.home f ≠ []) (hapart : s.Apart sources)
    (d : Disk) : s.Steady d sources := by
  refine ⟨fun f hf d' hsame => h _ _ _ _ ?_, fun _ _ _ _ => hends _ _ _⟩
  obtain ⟨hrooted, hne⟩ := hroot f hf
  obtain ⟨ns, name, hns, rfl⟩ := Path.Rooted.exists_concat hrooted hne
  have hplace : Path.place s.home (Path.parent (Path.ofNames true (ns ++ [name]))) ++ [name] =
      Path.place s.home (Path.ofNames true (ns ++ [name])) := by
    rw [Path.parent_ofNames hns, Path.place_of_proper hns,
      Path.place_of_proper fun n hn => hns n (List.mem_append_left _ hn)]
  have hlast : (s.arguments ++ ["--no-color", "-S", "-o", "-", name]).getLastD "" = name := by
    simp
  rw [Path.base_ofNames hns, hlast]
  refine Disk.read_name (hns name (by simp)) ?_
  rw [hplace]
  exact hsame _ (hapart.place_not_mem hf)

/-! ## The run -/

/-- The results of different files are all of them the last ones. -/
theorem lastResults_of_nodup {rs : List TestResult} (h : (rs.map (·.file)).Nodup) :
    lastResults rs = rs := by
  induction rs with
  | nil => rfl
  | cons r rs ih =>
    rw [List.map_cons, List.nodup_cons] at h
    have hnew : rs.any (·.file == r.file) = false := by
      rw [List.any_eq_false]
      intro r' hr' hfile
      exact h.1 (List.mem_map.2 ⟨r', hr', beq_iff_eq.1 hfile⟩)
    rw [lastResults, if_neg (by simp [hnew]), ih h.2]

/-- A run over different files passes if no result is a failure. -/
theorem passed_run_iff (s : Suite) (d : Disk) (skip : String) (verbose : Bool)
    (hnodup : ((s.testAll d (s.skipList skip) [] sources).map (·.file)).Nodup) :
    (s.run d skip verbose sources).passed = true ↔
      ∀ r ∈ s.testAll d (s.skipList skip) [] sources, r.status.isFailure = false := by
  unfold run
  split
  next hsources =>
    subst hsources
    exact ⟨fun _ r hr => absurd hr List.not_mem_nil, fun _ => rfl⟩
  next =>
    have hperm := List.mergeSort_perm (s.testAll d (s.skipList skip) [] sources) fun a b =>
      a.file ≤ b.file
    change (!hasFailure _) = true ↔ _
    rw [Bool.not_eq_true', hasFailure, lastResults_of_nodup ((hperm.map _).nodup_iff.2 hnodup),
      List.any_eq_false]
    simp only [hperm.mem_iff, Bool.not_eq_true]

theorem Verdict.file_eq {before : List String} {r : TestResult} (h : s.Verdict d made before f r) :
    r.file = f := by
  obtain ⟨-, -, -⟩ | ⟨-, ⟨-⟩ | ⟨-⟩⟩ := h
  all_goals rfl

theorem Verdict.status_eq
    {before : List String} {r : TestResult} (h : s.Verdict d made before f r)
    (hown : ¬ s.Overwritten made f) : r.status = .pass ∨ r.status = .skip := by
  obtain ⟨-, -, -⟩ | ⟨-, ⟨-⟩ | ⟨hover⟩⟩ := h
  · exact .inr rfl
  · exact .inl rfl
  · exact absurd hover hown

/-- Files with last names of their own are not overwritten. -/
theorem not_overwritten
    (h : s.folder = "" ∨ (made.map fun e => Path.base e.1).Nodup) : ¬ s.Overwritten made f := by
  rintro ⟨hfolder, r, g, r', hmem, hlast, hother⟩
  obtain hempty | hnodup := h
  · exact hfolder hempty
  · obtain ⟨hg, hbase⟩ := List.mem_filter.1 (List.mem_of_getLast? hlast)
    cases List.inj_on_of_nodup_map hnodup hg hmem (of_decide_eq_true hbase)
    exact hother rfl

/-- Tests of files whose records were just made and can be read back. The record that is kept of a file
    is the last one for its place. Every file gets one result: it is skipped if a file before it has the
    same hash, and it passes if no other record was kept in the place of its own. So all is well where the
    records stand next to the files, or no two files have the same last name. -/
theorem testAll_recorded (s : Suite) {d d' : Disk} {patterns patterns' : String}
    {sources sources' : List String}
    (hfound : Glob.files d s.home patterns = .ok sources) (hapart : s.Apart sources)
    (hsteady : s.Steady (s.withFolder d) sources)
    (hkept : s.keepAll (s.withFolder d) sources = .ok d')
    (hread : ∀ e ∈ s.made (s.withFolder d) sources, e.2.Readable)
    (hagain : Glob.files d' s.home patterns' = .ok sources') (hsame : ∀ f, f ∈ sources' ↔ f ∈ sources) :
    (∀ f ∈ sources, ∃ g r, s.standing (s.made (s.withFolder d) sources) (s.recordPlace f) = some (g, r) ∧
        s.kept d' f = .ok r) ∧
      sources'.Nodup ∧ (s.testAll d' [] [] sources').map (·.file) = sources' ∧
      (∀ i f, sources'[i]? = some f → ∃ r, (s.testAll d' [] [] sources')[i]? = some r ∧
        s.Verdict d' (s.made (s.withFolder d) sources) (sources'.take i) f r) ∧
      (s.folder = "" ∨ (sources.map Path.base).Nodup →
        (∀ r ∈ s.testAll d' [] [] sources', r.status = .pass ∨ r.status = .skip) ∧
        ∀ verbose, (s.run d' "" verbose sources').passed = true) := by
  obtain ⟨hnodup, hroot⟩ := Glob.files_rooted hfound
  have hrecorded : s.Recorded (s.withFolder d) sources d' :=
    ⟨hnodup, hroot, hapart, hsteady, hkept, hread⟩
  have hstands : ∀ f ∈ sources, ∃ g r, s.standing (s.made (s.withFolder d) sources) (s.recordPlace f) =
      some (g, r) ∧ s.kept d' f = .ok r := by
    intro f hf
    obtain ⟨r, hmem⟩ := exists_mem_made hkept hf
    exact hrecorded.kept_eq hmem
  -- What was shown of the files of the first run holds of those of the second.
  have hhash : ∀ f ∈ sources', ∃ hash, s.fileHash d' f = .ok hash := by
    intro f hf
    obtain ⟨r, hmem⟩ := exists_mem_made hkept ((hsame f).1 hf)
    obtain ⟨content, -, hcontent, -⟩ := hrecorded.record_again hmem
    exact ⟨_, fileHash_of_read hcontent⟩
  have htest : ∀ f ∈ sources', s.Outcome (s.made (s.withFolder d) sources) f (s.test d' f) := fun f hf =>
    hrecorded.outcome_test ((hsame f).1 hf)
  have hseen : s.HasSeen d' [] [] :=
    ⟨fun h => absurd h.symm (Option.some_ne_none _), fun hg => absurd hg List.not_mem_nil⟩
  obtain ⟨hlength, hverdicts⟩ := testAll_verdicts hseen hhash htest
  have hnodup' := (Glob.files_rooted hagain).1
  have hfiles : (s.testAll d' [] [] sources').map (·.file) = sources' := by
    refine List.ext_getElem? fun i => ?_
    rw [List.getElem?_map]
    cases hi : sources'[i]? with
    | none =>
      rw [List.getElem?_eq_none_iff, ← hlength] at hi
      rw [List.getElem?_eq_none hi]
      rfl
    | some f =>
      obtain ⟨r, hr, hverdict⟩ := hverdicts i f hi
      rw [hr, Option.map_some, hverdict.file_eq]
  refine ⟨hstands, hnodup', hfiles, hverdicts, fun hbase => ?_⟩
  have hown : ∀ f, ¬ s.Overwritten (s.made (s.withFolder d) sources) f := fun f => not_overwritten (by
    rwa [← map_fst_made hkept, List.map_map] at hbase)
  have hstatus : ∀ r ∈ s.testAll d' [] [] sources', r.status = .pass ∨ r.status = .skip := by
    intro r hr
    obtain ⟨i, hi, rfl⟩ := List.mem_iff_getElem.1 hr
    have hi' : i < sources'.length := hlength ▸ hi
    obtain ⟨r, hr, hverdict⟩ := hverdicts i sources'[i] (List.getElem?_eq_getElem hi')
    rw [List.getElem?_eq_getElem hi] at hr
    rw [Option.some.inj hr]
    exact hverdict.status_eq (hown _)
  have hdifferent : ((s.testAll d' [] [] sources').map (·.file)).Nodup := by rwa [hfiles]
  refine ⟨hstatus, fun verbose => (passed_run_iff s d' "" verbose hdifferent).2 fun r hr => ?_⟩
  obtain hpass | hskip := hstatus r hr
  · rw [hpass]
    rfl
  · rw [hskip]
    rfl

/-- A compiler that prints the file that is named last. -/
def echo : Compiler := fun d home arguments =>
  let content := (d.read home (arguments.getLastD "")).toOption.getD []
  { stdout := String.ofList (Text.decodeUtf8 content) }

theorem dependsOnFile_echo : DependsOnFile echo := by
  intro d d' home arguments h
  simp only [echo, h]

/-- Shows two texts that differ one after the other. -/
def bothTexts : TextDiff where
  text want got := if want = got then "" else "-" ++ want ++ "\n+" ++ got ++ "\n"
  text_eq_empty_iff _ _ := ite_eq_empty_iff (by simp)

/-- A suite with a folder for its records. -/
def gathering : Suite where
  compiler := echo
  digest content := content.foldl (fun h b => 31 * h + b.toUInt64) 0
  diff := bothTexts
  folder := "a"
  home := []

theorem steady_gathering {patterns : String}
    (hfound : Glob.files d [] patterns = .ok sources) (hne : ∀ f ∈ sources, Path.place [] f ≠ [])
    (hapart : gathering.Apart sources) : gathering.Steady (gathering.withFolder d) sources :=
  steady_of_dependsOnFile dependsOnFile_echo (fun _ _ _ => rfl)
    (fun f hf => ⟨(Glob.files_rooted hfound).2 f hf, hne f hf⟩) hapart _

/-- Files with last names of their own, two of them with the same content. -/
def strangers : Disk :=
  [(["a"], .folder), (["a", "x.mini"], .file [97]), (["y.mini"], .file [98]), (["z.mini"], .file [98])]

/-- With the records in one folder every test passes, or is skipped for its content. -/
theorem testAll_recorded_strangers :
    Glob.files strangers [] "a/x.mini y.mini z.mini" = .ok ["/a/x.mini", "/y.mini", "/z.mini"] ∧
      gathering.Apart ["/a/x.mini", "/y.mini", "/z.mini"] ∧
      gathering.Steady (gathering.withFolder strangers) ["/a/x.mini", "/y.mini", "/z.mini"] ∧
      (∀ e ∈ gathering.made (gathering.withFolder strangers) ["/a/x.mini", "/y.mini", "/z.mini"],
        e.2.Readable) ∧
      ∃ d', gathering.keepAll (gathering.withFolder strangers) ["/a/x.mini", "/y.mini", "/z.mini"] =
          .ok d' ∧
        Glob.files d' [] "z.mini y.mini a/x.mini" = .ok ["/z.mini", "/y.mini", "/a/x.mini"] ∧
        (∀ r ∈ gathering.testAll d' [] [] ["/z.mini", "/y.mini", "/a/x.mini"],
          r.status = .pass ∨ r.status = .skip) ∧
        (gathering.run d' "" false ["/z.mini", "/y.mini", "/a/x.mini"]).passed = true := by
  have hfound : Glob.files strangers [] "a/x.mini y.mini z.mini" =
      .ok ["/a/x.mini", "/y.mini", "/z.mini"] := by
    decide +kernel
  have hapart : gathering.Apart ["/a/x.mini", "/y.mini", "/z.mini"] := by
    unfold Apart
    decide +kernel
  have hsteady := steady_gathering hfound (by decide +kernel) hapart
  have hread : ∀ e ∈ gathering.made (gathering.withFolder strangers)
      ["/a/x.mini", "/y.mini", "/z.mini"], e.2.Readable := by
    decide +kernel
  have heval : (gathering.keepAll (gathering.withFolder strangers)
      ["/a/x.mini", "/y.mini", "/z.mini"]).toOption.any (fun d' => decide
        (Glob.files d' [] "z.mini y.mini a/x.mini" = .ok ["/z.mini", "/y.mini", "/a/x.mini"])) = true := by
    decide +kernel
  obtain ⟨d', hkept, hagain⟩ := exists_of_any heval
  rw [decide_eq_true_eq] at hagain
  have hnodup : (["/a/x.mini", "/y.mini", "/z.mini"].map Path.base).Nodup := by decide +kernel
  have hsame : ∀ f, f ∈ ["/z.mini", "/y.mini", "/a/x.mini"] ↔
      f ∈ ["/a/x.mini", "/y.mini", "/z.mini"] := fun f =>
    @List.mem_reverse _ f ["/a/x.mini", "/y.mini", "/z.mini"]
  obtain ⟨-, -, -, -, hall⟩ :=
    testAll_recorded gathering hfound hapart hsteady hkept hread hagain hsame
  obtain ⟨hstatus, hpassed⟩ := hall (.inr hnodup)
  exact ⟨hfound, hapart, hsteady, hread, d', hkept, hagain, hstatus, hpassed false⟩

/-- Files with the same last name. -/
def namesakes : Disk := [(["a"], .folder), (["a", "x.mini"], .file [97]), (["x.mini"], .file [98])]

/-- With the records in one folder the record of a file is lost where a later file has the same last
    name, and the test fails. -/
theorem namesakes_fail :
    Glob.files namesakes [] "x.mini a/x.mini" = .ok ["/x.mini", "/a/x.mini"] ∧
      gathering.Apart ["/x.mini", "/a/x.mini"] ∧
      gathering.Steady (gathering.withFolder namesakes) ["/x.mini", "/a/x.mini"] ∧
      (∀ e ∈ gathering.made (gathering.withFolder namesakes) ["/x.mini", "/a/x.mini"], e.2.Readable) ∧
      ∃ d', gathering.keepAll (gathering.withFolder namesakes) ["/x.mini", "/a/x.mini"] = .ok d' ∧
        gathering.kept d' "/x.mini" = gathering.kept d' "/a/x.mini" ∧
        Glob.files d' [] "x.mini a/x.mini" = .ok ["/x.mini", "/a/x.mini"] ∧
        (gathering.testAll d' [] [] ["/x.mini", "/a/x.mini"]).map (fun r => (r.file, r.status)) =
          [("/x.mini", .fail), ("/a/x.mini", .pass)] ∧
        (gathering.run d' "" false ["/x.mini", "/a/x.mini"]).passed = false := by
  have hfound : Glob.files namesakes [] "x.mini a/x.mini" = .ok ["/x.mini", "/a/x.mini"] := by
    decide +kernel
  have hapart : gathering.Apart ["/x.mini", "/a/x.mini"] := by
    unfold Apart
    decide +kernel
  have hsteady := steady_gathering hfound (by decide +kernel) hapart
  have hread : ∀ e ∈ gathering.made (gathering.withFolder namesakes) ["/x.mini", "/a/x.mini"],
      e.2.Readable := by
    decide +kernel
  have heval : (gathering.keepAll (gathering.withFolder namesakes)
      ["/x.mini", "/a/x.mini"]).toOption.any (fun d' => decide
        (gathering.kept d' "/x.mini" = gathering.kept d' "/a/x.mini" ∧
          Glob.files d' [] "x.mini a/x.mini" = .ok ["/x.mini", "/a/x.mini"] ∧
          (gathering.testAll d' [] [] ["/x.mini", "/a/x.mini"]).map (fun r => (r.file, r.status)) =
            [("/x.mini", .fail), ("/a/x.mini", .pass)])) = true := by
    decide +kernel
  obtain ⟨d', hkept, heval⟩ := exists_of_any heval
  obtain ⟨hshared, hagain, hresults⟩ := of_decide_eq_true heval
  have hfiles : ((gathering.testAll d' [] [] ["/x.mini", "/a/x.mini"]).map (·.file)).Nodup := by
    have hnames := congrArg (List.map Prod.fst) hresults
    rw [List.map_map] at hnames
    exact hnames ▸ (by decide : ["/x.mini", "/a/x.mini"].Nodup)
  obtain ⟨r, hr, hfail⟩ := List.mem_map.1 (hresults ▸ List.mem_cons_self)
  refine ⟨hfound, hapart, hsteady, hread, d', hkept, hshared, hagain, hresults, ?_⟩
  rw [← Bool.not_eq_true, passed_run_iff gathering d' "" false hfiles]
  intro hpassed
  have hstatus : r.status = .fail := congrArg Prod.snd hfail
  exact absurd (hpassed r hr) (by rw [hstatus]; decide)

end Suite

end MiniCompiler.Golden
