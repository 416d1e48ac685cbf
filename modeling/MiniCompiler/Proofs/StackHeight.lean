import MiniCompiler.Proofs.Emission

/-!
# The height of the stack

The height of the stack before a line of a function is the number of bytes that were pushed or
subtracted since the caller's aligned stack pointer, less those that were popped or added back, in the
order of the text. `Runs` says that lines take the stack from one height to another, where a jump goes
to a label of the same height; `CallsRight` says that a call finds the stack aligned and as high as its
arguments were passed with. `Emit.Levels` says of a step that the lines it writes run, and when their
calls are right.
-/

namespace MiniCompiler

variable {want' : List (Label × Int)}

/-! ## Heights of lines -/

/-- What a line adds to the height of the stack. -/
def Line.growth (t : Target) : Line → Int
  | .instr (.push _) => t.wordSize
  | .instr (.pop _) => -t.wordSize
  | .instr (.sub (.imm n) dst) => if dst = t.sp then wrap n else 0
  | .instr (.add (.imm n) dst) => if dst = t.sp then -wrap n else 0
  | _ => 0

/-- What lines add to the height of the stack. -/
def growthAll (t : Target) : List Line → Int
  | [] => 0
  | l :: ls => l.growth t + growthAll t ls

/-- The label that a line may jump to. -/
def Line.jump? : Line → Option Label
  | .instr (.jump l) => some l
  | .instr (.jumpIf _ l) => some l
  | _ => none

/-- Lines with the height before each of them, the first of which is `h`. -/
def heights (t : Target) : Int → List Line → List (Line × Int)
  | _, [] => []
  | h, l :: ls => (l, h) :: heights t (h + l.growth t) ls

section

variable {t : Target} {l : Line}

@[simp]
theorem growthAll_nil : growthAll t [] = 0 := rfl

@[simp]
theorem growthAll_cons (l : Line) (ls : List Line) :
    growthAll t (l :: ls) = l.growth t + growthAll t ls := rfl

@[simp]
theorem growthAll_append (ls ms : List Line) :
    growthAll t (ls ++ ms) = growthAll t ls + growthAll t ms := by
  induction ls with
  | nil => simp
  | cons l ls ih => simp [ih, Int.add_assoc]

theorem heights_append (ls ms : List Line) : ∀ h : Int,
    heights t h (ls ++ ms) = heights t h ls ++ heights t (h + growthAll t ls) ms := by
  induction ls with
  | nil => simp [heights]
  | cons l ls ih =>
    intro h
    simp only [List.cons_append, heights, ih, growthAll_cons, Int.add_assoc]

theorem mem_heights_of_getElem? : ∀ {ls : List Line} {i : Nat} (h : Int),
    ls[i]? = some l → (l, h + growthAll t (ls.take i)) ∈ heights t h ls := by
  intro ls
  induction ls with
  | nil => intro i h hi; simp at hi
  | cons m ls ih =>
    intro i h hi
    cases i with
    | zero =>
      cases hi
      simp [heights]
    | succ i =>
      have hmem := ih (h + m.growth t) hi
      simp only [List.take_succ_cons, growthAll_cons, heights, ← Int.add_assoc]
      exact List.mem_cons_of_mem _ hmem

theorem getElem?_of_mem_heights {k : Int} : ∀ {ls : List Line} {h : Int},
    (l, k) ∈ heights t h ls → ∃ i, ls[i]? = some l ∧ k = h + growthAll t (ls.take i) := by
  intro ls
  induction ls with
  | nil => intro h hmem; simp [heights] at hmem
  | cons m ls ih =>
    intro h hmem
    simp only [heights, List.mem_cons, Prod.mk.injEq] at hmem
    obtain ⟨rfl, rfl⟩ | hmem := hmem
    · exact ⟨0, by simp⟩
    · obtain ⟨i, hi, hk⟩ := ih hmem
      refine ⟨i + 1, by simpa using hi, ?_⟩
      simp only [List.take_succ_cons, growthAll_cons]
      omega

end

/-! ## Lines that keep the discipline of the stack -/

/-- From height `h`, lines take the stack to height `h'`. Jumps go to labels of the same height, among
    the lines or as `out` says. -/
structure Runs (t : Target) (out : Label → Int → Prop) (h : Int) (ls : List Line) (h' : Int) :
    Prop where
  height : h' = h + growthAll t ls
  jumps : ∀ l k, (l, k) ∈ heights t h ls → ∀ target, l.jump? = some target →
    (.label target, k) ∈ heights t h ls ∨ out target k

/-- Calls among lines find the stack aligned, and as high as the signed word that their arguments were
    passed with. -/
def CallsRight (t : Target) (h : Int) (ls : List Line) : Prop :=
  ∀ symbol pushed k, (.instr (.call symbol pushed), k) ∈ heights t h ls →
    k = wrap pushed ∧ t.stackAlignment ∣ k

theorem callsRight_append {t : Target} {h : Int} {ls ms : List Line} : CallsRight t h (ls ++ ms) ↔
    CallsRight t h ls ∧ CallsRight t (h + growthAll t ls) ms := by
  rw [CallsRight, heights_append]
  constructor
  · intro hright
    exact ⟨fun symbol pushed k hmem => hright symbol pushed k (List.mem_append_left _ hmem),
      fun symbol pushed k hmem => hright symbol pushed k (List.mem_append_right _ hmem)⟩
  · rintro ⟨hls, hms⟩ symbol pushed k hmem
    exact (List.mem_append.1 hmem).elim (hls symbol pushed k) (hms symbol pushed k)

theorem callsRight_of_no_call {t : Target} {h : Int} {ls : List Line}
    (hls : ∀ symbol pushed, .instr (.call symbol pushed) ∉ ls) : CallsRight t h ls := by
  intro symbol pushed k hmem
  obtain ⟨i, hi, -⟩ := getElem?_of_mem_heights hmem
  exact absurd (List.mem_of_getElem? hi) (hls symbol pushed)

namespace Runs

variable {t : Target} {out out' : Label → Int → Prop} {h h₁ h₂ h' : Int} {ls ms : List Line}

theorem nil : Runs t out h [] h := ⟨by simp, by simp [heights]⟩

theorem append (hls : Runs t out h ls h₁) (hms : Runs t out h₁ ms h₂) :
    Runs t out h (ls ++ ms) h₂ := by
  have hsplit : heights t h (ls ++ ms) = heights t h ls ++ heights t h₁ ms := by
    rw [heights_append, hls.height]
  refine ⟨by rw [hms.height, hls.height, growthAll_append, Int.add_assoc], ?_⟩
  intro l k hmem target htarget
  rw [hsplit, List.mem_append] at hmem ⊢
  obtain hmem | hmem := hmem
  · exact (hls.jumps l k hmem target htarget).imp .inl id
  · exact (hms.jumps l k hmem target htarget).imp .inr id

/-- Jumps to labels that are among the lines need not be known outside. -/
theorem bindLabels {inner : Label → Int → Prop}
    (hls : Runs t (fun l k => inner l k ∨ out l k) h ls h')
    (hmem : ∀ l k, inner l k → (.label l, k) ∈ heights t h ls) : Runs t out h ls h' := by
  refine ⟨hls.height, ?_⟩
  intro l k hl target htarget
  obtain hin | hinner | hout := hls.jumps l k hl target htarget
  · exact .inl hin
  · exact .inl (hmem target k hinner)
  · exact .inr hout

theorem plain (hjump : l.jump? = none) : Runs t out h [l] (h + l.growth t) := by
  refine ⟨by simp, ?_⟩
  intro l' k hmem target htarget
  simp only [heights, List.mem_singleton, Prod.mk.injEq] at hmem
  simp [hmem.1, hjump] at htarget

theorem label (l : Label) : Runs t out h [.label l] h := by
  have hplain : Runs t out h [.label l] (h + Line.growth t (.label l)) := plain rfl
  simpa [Line.growth] using hplain

theorem directive (name : String) (args : List String) :
    Runs t out h [.directive name args] h := by
  have hplain : Runs t out h [.directive name args] (h + Line.growth t (.directive name args)) :=
    plain rfl
  simpa [Line.growth] using hplain

theorem jump {target : Label} (hl : l.jump? = some target) (hgrowth : l.growth t = 0)
    (hout : out target h) : Runs t out h [l] h := by
  refine ⟨by simp [hgrowth], ?_⟩
  intro l' k hmem target' htarget
  simp only [heights, List.mem_singleton, Prod.mk.injEq] at hmem
  obtain ⟨rfl, rfl⟩ := hmem
  rw [hl] at htarget
  cases htarget
  exact .inr hout

end Runs

/-! ## Steps that keep the discipline of the stack -/

/-- From height `h`, the lines that a step writes run to a height that `Q` allows for its value. Each
    label of `want` is among them, at its height. If the step is given the right count of bytes, which
    is what `inStep` says, then its calls are right exactly if `fits` holds. -/
def Emit.Levels {α : Type} (t : Target) (out : Label → Int → Prop) (want : List (Label × Int))
    (h : Int) (inStep fits : Prop) (x : Emit α) (Q : α → Int → Prop) : Prop :=
  ∀ n a ls n', Emits x n a ls n' → ∃ h', Runs t out h ls h' ∧
    (∀ w ∈ want, (.label w.1, w.2) ∈ heights t h ls) ∧ (inStep → (CallsRight t h ls ↔ fits)) ∧ Q a h'

/-- An instruction that neither jumps nor calls. -/
def Instr.isPlain : Instr → Bool
  | .jump _ | .jumpIf _ _ | .call _ _ => false
  | _ => true

theorem Runs.instr {t : Target} {out : Label → Int → Prop} {h : Int} {i : Instr}
    (hi : i.isPlain = true) : Runs t out h [.instr i] (h + Line.growth t (.instr i)) :=
  Runs.plain (by cases i <;> first | rfl | cases hi)

namespace Emit

variable {α β : Type} {t : Target} {out : Label → Int → Prop} {want : List (Label × Int)} {h : Int}
  {inStep fits : Prop} {Q : α → Int → Prop} {f : β → Emit α} {x : Emit α}

theorem levels_of_emits (hx : ∀ n a ls n', Emits x n a ls n' → ∃ h',
      Runs t out h ls h' ∧ (∀ w ∈ want, (.label w.1, w.2) ∈ heights t h ls) ∧
      (∀ symbol pushed, .instr (.call symbol pushed) ∉ ls) ∧ Q a h') :
    Levels t out want h inStep True x Q := by
  intro n a ls n' hrun
  obtain ⟨h', hruns, hwant, hcalls, hQ⟩ := hx n a ls n' hrun
  exact ⟨h', hruns, hwant, fun _ => iff_true_intro (callsRight_of_no_call hcalls), hQ⟩

theorem levels_pure {a : α} (hQ : Q a h) : Levels t out [] h inStep True (pure a) Q := by
  refine levels_of_emits fun n b ls n' hrun => ?_
  obtain ⟨rfl, rfl, -⟩ := emits_pure.1 hrun
  exact ⟨h, .nil, by simp, by simp, hQ⟩

theorem Levels.seq {x : Emit β} {fits' : Prop} {R : β → Int → Prop}
    (hx : Levels t out [] h inStep fits x R)
    (hf : ∀ b h', R b h' → Levels t out want h' inStep fits' (f b) Q) :
    Levels t out want h inStep (fits ∧ fits') (x >>= f) Q := by
  intro n a ls n' hrun
  obtain ⟨b, l₁, n₁, l₂, hrun₁, hrun₂, rfl⟩ := emits_bind.1 hrun
  obtain ⟨h₁, hruns₁, -, hcalls₁, hR⟩ := hx n b l₁ n₁ hrun₁
  obtain ⟨h₂, hruns₂, hwant, hcalls₂, hQ⟩ := hf b h₁ hR n₁ a l₂ n' hrun₂
  refine ⟨h₂, hruns₁.append hruns₂, ?_, ?_, hQ⟩
  · intro w hw
    rw [heights_append, ← hruns₁.height]
    exact List.mem_append_right _ (hwant w hw)
  · intro hstep
    rw [callsRight_append, ← hruns₁.height, hcalls₁ hstep, hcalls₂ hstep]

theorem Levels.iff {inStep' fits' : Prop} (hx : Levels t out want h inStep fits x Q)
    (hiff : inStep' → inStep ∧ (fits ↔ fits')) : Levels t out want h inStep' fits' x Q := by
  intro n a ls n' hrun
  obtain ⟨h', hruns, hwant, hcalls, hQ⟩ := hx n a ls n' hrun
  exact ⟨h', hruns, hwant, fun hstep => (hcalls (hiff hstep).1).trans (hiff hstep).2, hQ⟩

/-- The calls are those of the second step. -/
theorem Levels.bind {x : Emit β} {R : β → Int → Prop} (hx : Levels t out [] h inStep True x R)
    (hf : ∀ b h', R b h' → Levels t out want h' inStep fits (f b) Q) :
    Levels t out want h inStep fits (x >>= f) Q :=
  (hx.seq hf).iff fun hstep => ⟨hstep, by rw [true_and]⟩

theorem Levels.andThen {x : Emit β}
    (hx : Levels t out [] h inStep True x fun _ h' => h' = h)
    (hf : ∀ b, Levels t out want h inStep fits (f b) Q) : Levels t out want h inStep fits (x >>= f) Q :=
  Levels.bind hx fun b _ hh => hh ▸ hf b

theorem Levels.both {x : Emit β} {fits' : Prop}
    (hx : Levels t out [] h inStep fits x fun _ h' => h' = h)
    (hf : ∀ b, Levels t out want h inStep fits' (f b) Q) :
    Levels t out want h inStep (fits ∧ fits') (x >>= f) Q :=
  hx.seq fun b _ hh => hh ▸ hf b

theorem Levels.last {x : Emit β}
    (hx : Levels t out [] h inStep fits x fun _ h' => h' = h)
    (hf : ∀ b, Levels t out want h inStep True (f b) Q) : Levels t out want h inStep fits (x >>= f) Q :=
  (hx.both hf).iff fun hstep => ⟨hstep, by rw [and_true]⟩

theorem Levels.mono {R : α → Int → Prop} (hx : Levels t out want h inStep fits x R)
    (hQ : ∀ a h', R a h' → Q a h') : Levels t out want h inStep fits x Q := by
  intro n a ls n' hrun
  obtain ⟨h', hruns, hwant, hcalls, hR⟩ := hx n a ls n' hrun
  exact ⟨h', hruns, hwant, hcalls, hQ a h' hR⟩

theorem Levels.subset
    (hx : Levels t out want h inStep fits x Q) (hsub : ∀ w ∈ want', w ∈ want) :
    Levels t out want' h inStep fits x Q := by
  intro n a ls n' hrun
  obtain ⟨h', hruns, hwant, hrest⟩ := hx n a ls n' hrun
  exact ⟨h', hruns, fun w hw => hwant w (hsub w hw), hrest⟩

theorem Levels.comm
    (hx : Levels t out (want ++ want') h inStep fits x Q) :
    Levels t out (want' ++ want) h inStep fits x Q :=
  hx.subset fun _ hw => List.mem_append.2 (List.mem_append.1 hw).symm

theorem Levels.swap {w w' : Label × Int} (hx : Levels t out [w, w'] h inStep fits x Q) :
    Levels t out [w', w] h inStep fits x Q :=
  hx.subset fun _ hw => (List.Perm.swap w w' []).mem_iff.1 hw

/-- A label that is taken here has to be written by what follows, at height `k`. -/
theorem Levels.newLabel_bind {f : Label → Emit α} (k : Int)
    (hf : ∀ l, Levels t (fun l' k' => (l' = l ∧ k' = k) ∨ out l' k') ((l, k) :: want) h inStep fits
      (f l) Q) : Levels t out want h inStep fits (newLabel >>= f) Q := by
  intro n a ls n' hrun
  obtain ⟨l, l₁, n₁, l₂, hnew, hrun₂, rfl⟩ := emits_bind.1 hrun
  obtain ⟨rfl, rfl, -⟩ := emits_newLabel.1 hnew
  obtain ⟨h', hruns, hwant, hrest⟩ := hf _ n₁ a l₂ n' hrun₂
  -- the label is among the lines that follow, so that jumps to it are inside
  refine ⟨h', hruns.bindLabels ?_, fun w hw => hwant w (by simp [hw]), hrest⟩
  rintro l k' ⟨rfl, rfl⟩
  exact hwant (_, k') (by simp)

theorem levels_label (l : Label) :
    Levels t out [(l, h)] h inStep True (label l) fun _ h' => h' = h := by
  refine levels_of_emits fun n a ls n' hrun => ?_
  obtain ⟨rfl, -⟩ := emits_label.1 hrun
  exact ⟨h, Runs.label l, by simp [heights], by simp, rfl⟩

/-- Each of two steps writes a part of the labels. -/
theorem Levels.append {x : Emit β} (hx : Levels t out want h inStep True x fun _ h' => h' = h)
    (hf : ∀ b, Levels t out want' h inStep fits (f b) Q) :
    Levels t out (want ++ want') h inStep fits (x >>= f) Q := by
  intro n a ls n' hrun
  obtain ⟨b, l₁, n₁, l₂, hrun₁, hrun₂, rfl⟩ := emits_bind.1 hrun
  obtain ⟨_, hruns₁, hwant₁, hcalls₁, rfl⟩ := hx n b l₁ n₁ hrun₁
  obtain ⟨h', hruns₂, hwant₂, hcalls₂, hQ⟩ := hf b n₁ a l₂ n' hrun₂
  refine ⟨h', hruns₁.append hruns₂, ?_, ?_, hQ⟩
  · intro w hw
    rw [heights_append, ← hruns₁.height, List.mem_append]
    exact (List.mem_append.1 hw).imp (hwant₁ w) (hwant₂ w)
  · intro hstep
    rw [callsRight_append, ← hruns₁.height, hcalls₁ hstep, hcalls₂ hstep, true_and]

theorem Levels.label_bind {l : Label} {f : Unit → Emit α}
    (hf : Levels t out want h inStep fits (f ()) Q) :
    Levels t out ((l, h) :: want) h inStep fits (label l >>= f) Q :=
  Levels.append (levels_label l) fun _ => hf

theorem levels_instr {i : Instr} (hi : i.isPlain = true) :
    Levels t out [] h inStep True (instr i) fun _ h' => h' = h + Line.growth t (.instr i) := by
  refine levels_of_emits fun n a ls n' hrun => ?_
  obtain ⟨rfl, -⟩ := emits_instr.1 hrun
  refine ⟨_, Runs.instr hi, by simp, ?_, rfl⟩
  intro symbol pushed hmem
  cases List.mem_singleton.1 hmem
  cases hi

theorem levels_still {i : Instr} (hi : i.isPlain = true) (hg : Line.growth t (.instr i) = 0) :
    Levels t out [] h inStep True (instr i) fun _ h' => h' = h :=
  (levels_instr hi).mono fun _ _ hh => by omega

theorem levels_jump {l : Label} (hout : out l h) :
    Levels t out [] h inStep True (instr (.jump l)) fun _ h' => h' = h := by
  refine levels_of_emits fun n a ls n' hrun => ?_
  obtain ⟨rfl, -⟩ := emits_instr.1 hrun
  exact ⟨h, Runs.jump rfl rfl hout, by simp, by simp, rfl⟩

theorem levels_jumpIf {l : Label} {cond : Cond} (hout : out l h) :
    Levels t out [] h inStep True (instr (.jumpIf cond l)) fun _ h' => h' = h := by
  refine levels_of_emits fun n a ls n' hrun => ?_
  obtain ⟨rfl, -⟩ := emits_instr.1 hrun
  exact ⟨h, Runs.jump rfl rfl hout, by simp, by simp, rfl⟩

/-- A call after a step that passes its arguments. The step is given the right count if the call is
    right, so that a call that is not right makes up for what is not known of the step. -/
theorem Levels.call_bind {x : Emit β} {f : Unit → Emit α} {symbol : String} {pushed : Int}
    {inArgs argsFit : Prop} (hx : Levels t out [] h inArgs argsFit x fun _ h' => h' = h)
    (hf : Levels t out [] h inStep True (f ()) Q)
    (hright : inStep → h = wrap pushed ∧ t.stackAlignment ∣ h → inArgs)
    (hiff : inStep → (fits ↔ (h = wrap pushed ∧ t.stackAlignment ∣ h) ∧ argsFit)) :
    Levels t out [] h inStep fits (x >>= fun _ => instr (.call symbol pushed) >>= f) Q := by
  intro n a ls n' hrun
  obtain ⟨b, l₁, n₁, _, hrun₁, hcallRun, rfl⟩ := emits_bind.1 hrun
  obtain ⟨l₂, hrun₂, rfl⟩ := emits_instr_bind.1 hcallRun
  obtain ⟨h₁, hruns₁, -, hcalls₁, hh⟩ := hx n b l₁ n₁ hrun₁
  subst hh
  obtain ⟨h', hruns₂, -, hcalls₂, hQ⟩ := hf n₁ a l₂ n' hrun₂
  have hplain : Runs t out h₁ [.instr (.call symbol pushed)] _ := Runs.plain rfl
  have hcall : Runs t out h₁ [.instr (.call symbol pushed)] h₁ := by simpa [Line.growth] using hplain
  have hone : CallsRight t h₁ [.instr (.call symbol pushed)] ↔
      h₁ = wrap pushed ∧ t.stackAlignment ∣ h₁ := by
    refine ⟨fun hc => hc symbol pushed h₁ (by simp [heights]), ?_⟩
    rintro hc symbol' pushed' k hmem
    simp only [heights, List.mem_singleton, Prod.mk.injEq, Line.instr.injEq, Instr.call.injEq] at hmem
    obtain ⟨⟨-, rfl⟩, rfl⟩ := hmem
    exact hc
  refine ⟨h', hruns₁.append (hcall.append hruns₂), by simp, fun hstep => ?_, hQ⟩
  rw [callsRight_append, ← hruns₁.height, ← List.singleton_append, callsRight_append,
    ← hcall.height, hcalls₂ hstep, and_true, hone, hiff hstep, and_comm]
  exact and_congr_right fun hc => hcalls₁ (hright hstep hc)

theorem Levels.ofExcept_bind {r : Except Fault β}
    (hf : ∀ b, r = .ok b → Levels t out want h inStep fits (f b) Q) :
    Levels t out want h inStep fits (ofExcept r >>= f) Q := by
  intro n a ls n' hrun
  obtain ⟨b, l₁, n₁, l₂, hrun₁, hrun₂, rfl⟩ := emits_bind.1 hrun
  obtain ⟨hr, rfl, -⟩ := emits_ofExcept.1 hrun₁
  exact hf b hr n₁ a l₂ n' hrun₂

theorem levels_fail (f : Fault) : Levels t out want h inStep fits (fail f : Emit α) Q :=
  fun _ _ _ _ hrun => absurd hrun not_emits_fail

theorem Levels.ite {b : Prop} [Decidable b] {x y : Emit α}
    (hx : b → Levels t out want h inStep fits x Q) (hy : ¬ b → Levels t out want h inStep fits y Q) :
    Levels t out want h inStep fits (if b then x else y) Q := by
  by_cases hb : b
  · rw [if_pos hb]
    exact hx hb
  · rw [if_neg hb]
    exact hy hb

/-- A step that leaves the height as it is, and is made only if `b` holds; if not, nothing is asked of
    its calls. -/
theorem Levels.ite_both {b : Prop} [Decidable b] {x : Emit Unit} {y : Emit α} {fits' : Prop}
    (hx : Levels t out [] h inStep fits x fun _ h' => h' = h)
    (hy : Levels t out want h inStep fits' y Q) (hskip : ¬ b → fits) :
    Levels t out want h inStep (fits ∧ fits') (if b then x >>= fun _ => y else y) Q :=
  Levels.ite (fun _ => Levels.both hx fun _ => hy) fun hb =>
    hy.iff fun hstep => ⟨hstep, by rw [eq_true (hskip hb), true_and]⟩

theorem Levels.ite_bind {b : Prop} [Decidable b] {x : Emit Unit} {y : Emit α}
    (hx : Levels t out [] h inStep True x fun _ h' => h' = h)
    (hy : Levels t out want h inStep fits y Q) :
    Levels t out want h inStep fits (if b then x >>= fun _ => y else y) Q :=
  (Levels.ite_both hx hy fun _ => trivial).iff fun hstep => ⟨hstep, by rw [true_and]⟩

theorem Levels.ensuring {y : Emit Unit} {R : α → Int → Prop}
    (hx : Levels t out [] h inStep fits x R)
    (hy : ∀ a h', R a h' → Levels t out [] h' inStep True y fun _ h'' => Q a h'') :
    Levels t out [] h inStep fits (x.ensuring y) Q := by
  intro n a ls n' hrun
  obtain ⟨l₁, n₁, l₂, hrun₁, hrun₂, rfl⟩ := emits_ensuring.1 hrun
  obtain ⟨h₁, hruns₁, -, hcalls₁, hR⟩ := hx n a l₁ n₁ hrun₁
  obtain ⟨h₂, hruns₂, -, hcalls₂, hQ⟩ := hy a h₁ hR n₁ () l₂ n' hrun₂
  refine ⟨h₂, hruns₁.append hruns₂, by simp, fun hstep => ?_, hQ⟩
  rw [callsRight_append, ← hruns₁.height, hcalls₁ hstep, hcalls₂ hstep, and_true]

theorem levels_bindingOf (v : Variable) :
    Levels t out [] h inStep True (bindingOf v) fun _ h' => h' = h := by
  unfold bindingOf
  split
  · exact levels_pure rfl
  · exact levels_fail _

theorem Levels.reg_bind {n : Int} {f : Operand → Emit α}
    (hf : ∀ r, Levels t out want h inStep fits (f (.reg r)) Q) :
    Levels t out want h inStep fits (t.reg n >>= f) Q := by
  refine Levels.ofExcept_bind fun a ha => ?_
  cases hr : t.register n with
  | error e => simp [hr, Except.map] at ha
  | ok r =>
    rw [hr] at ha
    cases ha
    exact hf r

end Emit

end MiniCompiler
