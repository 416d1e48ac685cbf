import MiniCompiler.Proofs.Directives
import MiniCompiler.Proofs.FlagReading

/-!
# Switches after reading

Which arguments put a switch on or off can be said without reading them: `stateSaid` goes by how they
are spelled, and `FlagSet.spoken` leaves out those that are the value of the flag before them or stand
behind the double dash. A switch without a short name ends in the state that the last of them says.

Main statement: `FlagSet.WellNamed.value?_read`.
-/

namespace MiniCompiler.Arguments

open FlagSet (attachment leadingDashes)

variable {attached : Option String}

/-! ## What arguments say -/

/-- The words that put a switch on. -/
def onWords : List String := ["", "1", "t", "T", "TRUE", "true", "True"]

/-- The words that put a switch off. -/
def offWords : List String := ["0", "f", "F", "FALSE", "false", "False"]

/-- The arguments that mention a flag by its name: `-name` and `--name`, with an equals sign and what is
    attached. -/
def spellings (name : String) (attached : Option String) : List (List Char) :=
  leadingDashes.map (· ++ (name.toList ++ attachment attached))

/-- The state that an argument puts the switch of a name in. -/
def stateSaid (name argument : String) : Option Bool :=
  if ∃ attached ∈ none :: onWords.map some, argument.toList ∈ spellings name attached then some true
  else if ∃ attached ∈ offWords.map some, argument.toList ∈ spellings name attached then some false
  else none

namespace FlagSet

/-- Does a flag take the next argument: it is no switch, and it is mentioned with nothing attached? -/
def takesNext (s : FlagSet) (argument : String) : Bool :=
  s.flags.any fun f => !f.value.isSwitch &&
    (argument.toList ∈ spellings f.name none || f.short != "" && argument == "-" ++ f.short)

/-- The arguments up to the double dash, without those that flags take. -/
def spoken (s : FlagSet) : List String → List String
  | [] => []
  | argument :: rest =>
    if argument = "--" then []
    else if s.takesNext argument then
      match rest with
      | [] => []
      | _ :: rest => s.spoken rest
    else argument :: s.spoken rest

theorem spoken_cons (s : FlagSet) (argument : String) (rest : List String) :
    s.spoken (argument :: rest) =
      if argument = "--" then []
      else if s.takesNext argument then s.spoken rest.tail
      else argument :: s.spoken rest := by
  cases rest <;> rfl

/-- No flag has the short name of another one. -/
def OwnShorts (s : FlagSet) : Prop :=
  ∀ f ∈ s.flags, f.short ≠ "" → s.findShort? f.short = some f

instance (s : FlagSet) : Decidable s.OwnShorts := inferInstanceAs (Decidable (∀ f ∈ _, _))

end FlagSet

/-! ## Words -/

theorem switchState_eq (word : String) :
    switchState word =
      if word ∈ onWords then .ok true
      else if word ∈ offWords then .ok false
      else .error (.notBoolean word) := by
  unfold switchState readBool? onWords offWords
  by_cases hempty : word = ""
  · simp [hempty]
  · have hon : word ∈ ["", "1", "t", "T", "TRUE", "true", "True"] ↔
        word ∈ ["1", "t", "T", "TRUE", "true", "True"] := by
      rw [List.mem_cons, or_iff_right hempty]
    simp only [if_neg hempty, hon]
    split_ifs <;> rfl

/-- An argument that is spelled with the name says what is attached. -/
theorem stateSaid_eq_of_unique {name argument : String}
    (hspelled : argument.toList ∈ spellings name attached)
    (hunique : ∀ other, argument.toList ∈ spellings name other → other = attached) :
    stateSaid name argument = (switchState (attached.getD "")).toOption := by
  have hiff (l : List (Option String)) :
      (∃ other ∈ l, argument.toList ∈ spellings name other) ↔ attached ∈ l := by
    constructor
    · rintro ⟨other, hmem, hother⟩
      exact hunique other hother ▸ hmem
    · exact fun hmem => ⟨attached, hmem, hspelled⟩
  rw [stateSaid, switchState_eq]
  simp only [hiff]
  cases attached with
  | none => rfl
  | some word =>
    simp only [List.mem_cons, reduceCtorEq, false_or, List.mem_map, Option.some.injEq, exists_eq_right,
      Option.getD_some]
    split_ifs <;> rfl

theorem stateSaid_eq_none {name argument : String}
    (h : ∀ attached, argument.toList ∉ spellings name attached) : stateSaid name argument = none := by
  rw [stateSaid, if_neg, if_neg]
  · rintro ⟨attached, -, hspelled⟩
    exact h attached hspelled
  · rintro ⟨attached, -, hspelled⟩
    exact h attached hspelled

namespace FlagSet

/-! ## Mentions -/

variable {s : FlagSet} {f : Flag} {m : Mention} {argument : List Char}

theorem WellNamed.mention?_spelling (h : s.WellNamed) (hf : f ∈ s.flags)
    (hspelled : argument ∈ spellings f.name attached) :
    s.mention? argument = some ⟨f, false, attached⟩ := by
  obtain ⟨dashes, hdashes, rfl⟩ := List.mem_map.1 hspelled
  exact h.mention?_name hf hdashes attached

theorem isOrdinary_spelling {name : String} (hname : name ≠ "")
    (hspelled : argument ∈ spellings name attached) : isOrdinary argument = false := by
  obtain ⟨dashes, hdashes, rfl⟩ := List.mem_map.1 hspelled
  obtain ⟨c, cs, hcs⟩ : ∃ c cs, name.toList = c :: cs :=
    List.exists_cons_of_ne_nil fun hnil => hname (String.toList_eq_nil_iff.1 hnil)
  rw [hcs]
  rcases List.mem_cons.1 hdashes with rfl | hdashes
  · rfl
  · cases List.mem_singleton.1 hdashes
    rfl

theorem cutAtEquals_append (cs : List Char) :
    (cutAtEquals cs).1.toList ++ attachment (cutAtEquals cs).2 = cs := by
  have hsplit := List.takeWhile_append_dropWhile (p := (· ≠ '=')) (l := cs)
  have hhead := List.head?_dropWhile_not (· ≠ '=') cs
  unfold cutAtEquals
  cases hrest : cs.dropWhile (· ≠ '=') with
  | nil =>
    rw [hrest] at hsplit
    simpa [attachment] using hsplit
  | cons c value =>
    rw [hrest] at hsplit hhead
    obtain rfl : c = '=' := by simpa using hhead
    simpa [attachment] using hsplit

theorem exists_of_isOrdinary_eq_false (h : isOrdinary argument = false) :
    ∃ c cs, argument = '-' :: c :: cs := by
  unfold isOrdinary at h
  split at h
  next c cs => exact ⟨c, cs, rfl⟩
  next => cases h

theorem mem_spellings_cutAtEquals (h : isOrdinary argument = false) :
    argument ∈ spellings (cutAtEquals (dropDash (dropDash argument))).1
      (cutAtEquals (dropDash (dropDash argument))).2 := by
  obtain ⟨c, cs, rfl⟩ := exists_of_isOrdinary_eq_false h
  have hfirst : dropDash ('-' :: c :: cs) = c :: cs := rfl
  simp only [spellings, leadingDashes, cutAtEquals_append, hfirst, List.map_cons, List.map_nil,
    List.mem_cons, List.cons_append, List.nil_append, List.not_mem_nil, or_false]
  by_cases hc : c = '-'
  · subst hc
    exact .inr rfl
  · rw [dropDash]
    · exact .inl rfl
    · rintro ds hds
      exact hc (List.cons.inj hds).1

/-- A flag is mentioned by its name or by its short name. -/
theorem mention?_cases (hflag : isOrdinary argument = false) (hm : s.mention? argument = some m) :
    m.flag ∈ s.flags ∧ (argument ∈ spellings m.flag.name m.attached ∨
      m.flag.short ≠ "" ∧ ∃ cs, argument = '-' :: (m.flag.short.toList ++ cs) ∧
        m.attached = if cs = [] then none else some (String.ofList cs)) := by
  have hspelled := mem_spellings_cutAtEquals hflag
  simp only [mention?] at hm
  cases hfound : s.find? (cutAtEquals (dropDash (dropDash argument))).1 with
  | some f =>
    have hname : f.name = (cutAtEquals (dropDash (dropDash argument))).1 := by
      simpa using List.find?_some hfound
    rw [hfound] at hm
    cases hm
    rw [← hname] at hspelled
    exact ⟨List.mem_of_find?_eq_some hfound, .inl hspelled⟩
  | none =>
    rw [hfound] at hm
    obtain ⟨c, cs, rfl⟩ := exists_of_isOrdinary_eq_false hflag
    simp only [shortMention?] at hm
    split at hm
    next => cases hm
    next =>
      obtain ⟨f, hshort, rfl⟩ := Option.map_eq_some_iff.1 hm
      have hne : String.ofList [c] ≠ "" := by simp
      rw [findShort?, if_neg hne] at hshort
      have hname : f.short = String.ofList [c] := by simpa using List.find?_some hshort
      refine ⟨List.mem_of_find?_eq_some hshort, .inr ⟨hname ▸ hne, cs, ?_, rfl⟩⟩
      simp [hname]

theorem WellNamed.exists_short (h : s.WellNamed) (hf : f ∈ s.flags) (hne : f.short ≠ "") :
    ∃ c : Char, f.short = String.ofList [c] ∧ c.toNat < 0x80 := by
  have hsize := h.short f hf
  have hlength : f.short.length < 2 := by
    refine Nat.lt_of_not_le fun hlong => ?_
    have := two_le_utf8ByteSize hlong
    omega
  rw [← String.length_toList] at hlength
  rcases hchars : f.short.toList with - | ⟨c, - | ⟨d, cs⟩⟩
  · exact absurd (String.toList_eq_nil_iff.1 hchars) hne
  · have hshort : f.short = String.ofList [c] := String.toList_inj.1 (by simp [hchars])
    have hone : (String.ofList [c]).utf8ByteSize = c.utf8Size := String.utf8ByteSize_singleton
    rw [hshort, hone] at hsize
    refine ⟨c, hshort, ?_⟩
    have := Char.utf8Size_eq_one_iff.1 (Nat.le_antisymm hsize c.utf8Size_pos)
    exact Nat.lt_succ_of_le this
  · rw [hchars, List.length_cons, List.length_cons] at hlength
    omega

theorem WellNamed.mention?_short (h : s.WellNamed) (hown : s.OwnShorts) (hf : f ∈ s.flags)
    (hne : f.short ≠ "") (hdash : f.short ≠ "-") :
    s.mention? ('-' :: f.short.toList) = some ⟨f, true, none⟩ := by
  obtain ⟨c, hshort, hascii⟩ := h.exists_short hf hne
  have hc : c ≠ '-' := by
    rintro rfl
    exact hdash hshort
  have hfound := hown f hf hne
  rw [hshort] at hfound
  have hbody : dropDash (dropDash ['-', c]) = [c] := by
    rw [dropDash, dropDash]
    rintro ds hds
    exact hc (List.cons.inj hds).1
  -- no name is as short as that
  have hnone : s.find? (cutAtEquals [c]).1 = none := by
    refine List.find?_eq_none.2 fun g hg heq => ?_
    have hlong := h.long g hg
    have hparts := congrArg List.length (cutAtEquals_append [c])
    rw [beq_iff_eq.1 heq, ← String.length_toList] at hlong
    simp only [List.length_append, List.length_singleton] at hparts
    omega
  have hnot : ¬ (c = '-' ∨ 0x80 ≤ c.toNat) := by
    rintro (heq | hle)
    · exact hc heq
    · omega
  rw [hshort, String.toList_ofList]
  simp only [mention?, hbody, hnone, shortMention?, if_neg hnot, hfound, Option.map_some, if_true]

/-! ## What is said, and what is taken -/

section Said

variable {a : String} (h : s.WellNamed)

include h

theorem WellNamed.name_ne_empty (hf : f ∈ s.flags) : f.name ≠ "" := by
  intro hempty
  have hlong := h.long f hf
  rw [hempty] at hlong
  exact absurd hlong (by decide)

theorem WellNamed.stateSaid_of_isOrdinary (hf : f ∈ s.flags) (ha : isOrdinary a.toList = true) :
    stateSaid f.name a = none := by
  refine stateSaid_eq_none fun attached hspelled => ?_
  rw [isOrdinary_spelling (h.name_ne_empty hf) hspelled] at ha
  cases ha

/-- An argument has no say on other flags than the one that it mentions. -/
theorem WellNamed.stateSaid_of_ne (hf : f ∈ s.flags) (hm : s.mention? a.toList = some m)
    (hne : m.flag ≠ f) : stateSaid f.name a = none := by
  refine stateSaid_eq_none fun attached hspelled => ?_
  rw [h.mention?_spelling hf hspelled] at hm
  cases hm
  exact hne rfl

/-- What an argument says of a flag without a short name is what is read off it. -/
theorem WellNamed.stateSaid_of_eq (ha : isOrdinary a.toList = false)
    (hm : s.mention? a.toList = some m) (hshort : m.flag.short = "") :
    m.byShort = false ∧ stateSaid m.flag.name a = (switchState (m.attached.getD "")).toOption := by
  obtain ⟨hmem, hspelled | ⟨hne, -⟩⟩ := mention?_cases ha hm
  · have hname {attached : Option String} (hother : a.toList ∈ spellings m.flag.name attached) :
        m = ⟨m.flag, false, attached⟩ := by
      rw [h.mention?_spelling hmem hother] at hm
      exact (Option.some.inj hm).symm
    refine ⟨congrArg Mention.byShort (hname hspelled), stateSaid_eq_of_unique hspelled ?_⟩
    intro other hother
    exact (congrArg Mention.attached (hname hother)).symm
  · exact absurd hshort hne

theorem WellNamed.takesNext_of_isOrdinary (ha : isOrdinary a.toList = true) :
    s.takesNext a = false := by
  refine List.any_eq_false.2 fun f hf => ?_
  simp only [Bool.and_eq_true, Bool.or_eq_true, decide_eq_true_eq, bne_iff_ne, beq_iff_eq]
  rintro ⟨-, hspelled | ⟨hne, rfl⟩⟩
  · rw [isOrdinary_spelling (h.name_ne_empty hf) hspelled] at ha
    cases ha
  · obtain ⟨c, hshort, -⟩ := h.exists_short hf hne
    rw [hshort] at ha
    simp [isOrdinary] at ha

/-- The next argument is taken by a flag that is no switch and has nothing attached. -/
theorem WellNamed.takesNext_eq (hown : s.OwnShorts) (hdash : a ≠ "--")
    (ha : isOrdinary a.toList = false) (hm : s.mention? a.toList = some m) :
    s.takesNext a = (!m.flag.value.isSwitch && m.attached.isNone) := by
  obtain ⟨hmem, hcases⟩ := mention?_cases ha hm
  rw [Bool.eq_iff_iff]
  simp only [takesNext, List.any_eq_true, Bool.and_eq_true, Bool.or_eq_true, decide_eq_true_eq,
    bne_iff_ne, beq_iff_eq, Option.isNone_iff_eq_none]
  constructor
  · rintro ⟨f, hf, hswitch, hspelled | ⟨hne, rfl⟩⟩
    · rw [h.mention?_spelling hf hspelled] at hm
      cases hm
      exact ⟨hswitch, rfl⟩
    · have hchars : ("-" ++ f.short).toList = '-' :: f.short.toList := by simp
      have hnot : f.short ≠ "-" := by
        intro heq
        rw [heq] at hdash
        exact hdash rfl
      rw [hchars, h.mention?_short hown hf hne hnot] at hm
      cases hm
      exact ⟨hswitch, rfl⟩
  · rintro ⟨hswitch, hnone⟩
    refine ⟨m.flag, hmem, hswitch, ?_⟩
    obtain hspelled | ⟨hne, cs, hargument, hattached⟩ := hcases
    · exact .inl (hnone ▸ hspelled)
    · obtain rfl : cs = [] := by
        by_contra hcs
        rw [hnone, if_neg hcs] at hattached
        cases hattached
      exact .inr ⟨hne, String.toList_inj.1 (by simp [hargument])⟩

end Said

/-! ## Reading -/

/-- What comes of an argument that can be read, other than the double dash: the values and the arguments
    that are left. -/
inductive Reads (s : FlagSet) (v : Flag → Value) (a : String) :
    List String → (Flag → Value) → List String → Prop
  | ordinary (rest : List String) (ha : isOrdinary a.toList = true) : Reads s v a rest v rest
  | switched (rest : List String) {m : Mention} {on : Bool} (ha : isOrdinary a.toList = false)
      (hm : s.mention? a.toList = some m) (hkind : m.flag.value.isSwitch = true)
      (hstate : switchState (if m.byShort then "" else m.attached.getD "") = .ok on) :
      Reads s v a rest (Function.update v m.flag (.switch on)) rest
  | attached (rest : List String) {m : Mention} {x : Value} (ha : isOrdinary a.toList = false)
      (hm : s.mention? a.toList = some m) (hkind : m.flag.value.isSwitch = false)
      (hx : x.isSwitch = false) (hattached : m.attached.isNone = false) :
      Reads s v a rest (Function.update v m.flag x) rest
  | taking (b : String) (rest : List String) {m : Mention} {x : Value}
      (ha : isOrdinary a.toList = false) (hm : s.mention? a.toList = some m)
      (hkind : m.flag.value.isSwitch = false) (hx : x.isSwitch = false)
      (hattached : m.attached.isNone = true) :
      Reads s v a (b :: rest) (Function.update v m.flag x) rest

/-- Switches are switches and no other flag is one. -/
def KeepsKinds (s : FlagSet) (v : Flag → Value) : Prop :=
  ∀ g ∈ s.flags, (v g).isSwitch = g.value.isSwitch

theorem KeepsKinds.update {v : Flag → Value} (hv : s.KeepsKinds v) {x : Value}
    (hx : x.isSwitch = f.value.isSwitch) : s.KeepsKinds (Function.update v f x) := by
  intro g hg
  by_cases hgf : g = f
  · rw [hgf, Function.update_self, hx]
  · rw [Function.update_of_ne hgf, hv g hg]

theorem isSwitch_assigned (x : Value) (given : String) : (assigned x given).isSwitch = false := by
  cases x <;> rfl

section Reading

variable {v v' : Flag → Value} {a : String} {rest rest' : List String}

theorem Reads.keepsKinds (hstep : s.Reads v a rest v' rest') (hv : s.KeepsKinds v) :
    s.KeepsKinds v' := by
  cases hstep with
  | ordinary => exact hv
  | switched _ _ _ hkind => exact hv.update hkind.symm
  | attached _ _ _ hkind hx => exact hv.update (hx.trans hkind.symm)
  | taking _ _ _ _ hkind hx => exact hv.update (hx.trans hkind.symm)

theorem Reads.length_le (hstep : s.Reads v a rest v' rest') : rest'.length ≤ rest.length := by
  cases hstep with
  | ordinary | switched | attached => exact Nat.le_refl _
  | taking => exact Nat.le_succ _

variable (h : s.WellNamed)

include h

theorem WellNamed.set_update (hf : f ∈ s.flags) (x : Value) :
    (s.withValues v).set f.name x = s.withValues (Function.update v f x) := by
  rw [set_withValues]
  refine withValues_congr fun g hg => ?_
  by_cases hname : g.name = f.name
  · cases h.eq_of_name hg hf hname
    simp
  · have hne : g ≠ f := fun heq => hname (heq ▸ rfl)
    rw [if_neg hname, Function.update_of_ne hne]

theorem WellNamed.value?_eq (hf : f ∈ s.flags) : (s.withValues v).value? f.name = some (v f) := by
  rw [value?_withValues, h.find?_eq_some hf, Option.map_some]

/-- Reading goes step by step. -/
theorem WellNamed.exists_reads (hv : s.KeepsKinds v) (hdash : a ≠ "--")
    (hok : ((s.withValues v).read (a :: rest)).error = none) :
    ∃ v' rest', s.Reads v a rest v' rest' ∧
      ((s.withValues v).read (a :: rest)).flags = ((s.withValues v').read rest').flags ∧
      ((s.withValues v').read rest').error = none := by
  rw [read, if_neg hdash] at hok ⊢
  cases ha : isOrdinary a.toList with
  | true =>
    rw [ha] at hok
    exact ⟨v, rest, .ordinary rest ha, rfl, hok⟩
  | false =>
    rw [ha, mention?_withValues] at hok
    rw [mention?_withValues]
    cases hm : s.mention? a.toList with
    | none =>
      rw [hm] at hok
      cases hok
    | some m =>
      have hmem := (mention?_cases ha hm).1
      rw [hm] at hok
      simp only [Bool.false_eq_true, if_false, Option.map_some, hv _ hmem, h.set_update hmem] at hok ⊢
      cases hkind : m.flag.value.isSwitch with
      | true =>
        rw [hkind] at hok
        cases hstate : switchState (if m.byShort then "" else m.attached.getD "") with
        | error e =>
          rw [hstate] at hok
          cases hok
        | ok on =>
          rw [hstate] at hok
          exact ⟨_, rest, .switched rest ha hm hkind hstate, rfl, hok⟩
      | false =>
        rw [hkind] at hok
        have hx := isSwitch_assigned (v m.flag)
        cases hattached : m.attached with
        | some given =>
          rw [hattached] at hok
          exact ⟨_, rest, .attached rest ha hm hkind (hx given) (by rw [hattached]; rfl), rfl, hok⟩
        | none =>
          rw [hattached] at hok
          cases rest with
          | nil => cases hok
          | cons given rest =>
            exact ⟨_, rest, .taking given rest ha hm hkind (hx given) (by rw [hattached]; rfl), rfl, hok⟩

/-- A step leaves a switch in the state that is said, and what is said later counts more. -/
theorem Reads.lastWord_spoken (hown : s.OwnShorts) (hf : f ∈ s.flags) (hshort : f.short = "")
    (hdash : a ≠ "--") (hstep : s.Reads v a rest v' rest') (hv : s.KeepsKinds v) {on : Bool}
    (hon : v f = .switch on) :
    ∃ on', v' f = .switch on' ∧
      (lastWord (stateSaid f.name) (s.spoken (a :: rest))).getD on =
        (lastWord (stateSaid f.name) (s.spoken rest')).getD on' := by
  have hspoken (hnext : s.takesNext a = false) : s.spoken (a :: rest) = a :: s.spoken rest := by
    rw [spoken_cons, if_neg hdash, hnext]
    rfl
  have hswitch : f.value.isSwitch = true := by
    rw [← hv f hf, hon]
    rfl
  have hother {m : Mention} (hkind : m.flag.value.isSwitch = false) : m.flag ≠ f := by
    rintro rfl
    rw [hswitch] at hkind
    cases hkind
  cases hstep with
  | ordinary _ ha =>
    refine ⟨on, hon, ?_⟩
    rw [hspoken (h.takesNext_of_isOrdinary ha), lastWord_cons, h.stateSaid_of_isOrdinary hf ha,
      Option.or_none]
  | @switched _ m on' ha hm hkind hstate =>
    rw [hspoken (by rw [h.takesNext_eq hown hdash ha hm, hkind]; rfl), lastWord_cons]
    by_cases heq : m.flag = f
    · subst heq
      obtain ⟨hby, hsaid⟩ := h.stateSaid_of_eq ha hm hshort
      rw [hby] at hstate
      refine ⟨on', Function.update_self .., ?_⟩
      rw [hsaid, show switchState (m.attached.getD "") = .ok on' from hstate]
      cases lastWord (stateSaid m.flag.name) (s.spoken rest) <;> rfl
    · refine ⟨on, ?_, ?_⟩
      · rw [Function.update_of_ne (Ne.symm heq), hon]
      · rw [h.stateSaid_of_ne hf hm heq, Option.or_none]
  | attached _ ha hm hkind _ hattached =>
    refine ⟨on, ?_, ?_⟩
    · rw [Function.update_of_ne (Ne.symm (hother hkind)), hon]
    · rw [hspoken (by rw [h.takesNext_eq hown hdash ha hm, hattached, Bool.and_false]), lastWord_cons,
        h.stateSaid_of_ne hf hm (hother hkind), Option.or_none]
  | taking b _ ha hm hkind _ hattached =>
    refine ⟨on, ?_, ?_⟩
    · rw [Function.update_of_ne (Ne.symm (hother hkind)), hon]
    · rw [spoken_cons, if_neg hdash, h.takesNext_eq hown hdash ha hm, hkind, hattached]
      rfl

/-- A switch without a short name is in the state that was said last, and else in the state from
    before. -/
theorem WellNamed.value?_read (hown : s.OwnShorts) (hf : f ∈ s.flags) (hshort : f.short = "")
    {arguments : List String} (hv : s.KeepsKinds v) {on : Bool} (hon : v f = .switch on)
    (hok : ((s.withValues v).read arguments).error = none) :
    ((s.withValues v).read arguments).flags.value? f.name =
      some (.switch ((lastWord (stateSaid f.name) (s.spoken arguments)).getD on)) := by
  induction hlength : arguments.length using Nat.strongRecOn generalizing arguments v on with
  | ind n ih =>
    cases arguments with
    | nil =>
      rw [read, h.value?_eq hf, hon]
      rfl
    | cons a rest =>
      by_cases hdash : a = "--"
      · rw [read, if_pos hdash, spoken_cons, if_pos hdash, h.value?_eq hf, hon]
        rfl
      · obtain ⟨v', rest', hstep, hflags, hok'⟩ := h.exists_reads hv hdash hok
        obtain ⟨on', hon', hlast⟩ := hstep.lastWord_spoken h hown hf hshort hdash hv hon
        have hle := hstep.length_le
        rw [List.length_cons] at hlength
        rw [hflags, hlast]
        exact ih rest'.length (by omega) (hstep.keepsKinds hv) hon' hok' rfl

end Reading

end FlagSet
end MiniCompiler.Arguments
