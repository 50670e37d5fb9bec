import Howlinux.Knowledge.Lint
import Howlinux.Library.Lockstep
import Howlinux.Markdown.Render

open Bytes List

namespace Howlinux

-- A line whose first byte other than blanks is a fence marker.
structure FenceShape where
  spaces : ℕ
  blanks : Bytes
  marker : UInt8
  length : ℕ
  info   : Bytes
  deriving DecidableEq, Repr

def fenceShape (line : Bytes) : Option FenceShape :=
  let rest := line.dropWhile (· == byte ' ')
  (bodyRun (rest.dropWhile isBlank)).map fun (marker, length, info) => {
    spaces := (line.takeWhile (· == byte ' ')).length
    blanks := rest.takeWhile isBlank
    marker, length, info }

def FenceShape.IsFence (shape : FenceShape) : Prop :=
  shape.spaces ≤ 3 ∧ 3 ≤ shape.length

instance (shape : FenceShape) : Decidable shape.IsFence :=
  inferInstanceAs (Decidable (_ ∧ _))

section

variable {line body info : Bytes} {shape : FenceShape} {marker : UInt8} {length : ℕ}

theorem not_isBlank_of_isFenceByte {b : UInt8} (h : isFenceByte b) : isBlank b = false := by
  simp only [isFenceByte, Bool.or_eq_true, beq_iff_eq] at h
  cases h <;> (rename_i h; subst h; rfl)

theorem bodyRun_cons {marker : UInt8} : bodyRun (marker :: body) =
    if isFenceByte marker then
      some (marker, ((marker :: body).takeWhile (· == marker)).length, (marker :: body).dropWhile (· == marker))
    else
      none := by
  simp only [bodyRun, drop_length_takeWhile]

theorem eq_of_bodyRun (h : bodyRun body = some (marker, length, info)) :
    isFenceByte marker ∧ body = replicate length marker ++ info := by
  cases body
  case nil => contradiction
  case cons b body =>
    rw [bodyRun_cons] at h
    split at h
    case isFalse => contradiction
    case isTrue hb =>
      cases h
      have hr : (marker :: body).takeWhile (· == marker) =
          replicate ((marker :: body).takeWhile (· == marker)).length marker :=
        eq_replicate_of_mem fun _ hm => eq_of_beq <| mem_takeWhile_imp (p := (· == marker)) hm
      exact ⟨hb, by rw [← hr, takeWhile_append_dropWhile]⟩

-- What the lint takes for a fence has no blanks but spaces before its run.
theorem fenceRun_eq : fenceRun line = (fenceShape line).bind fun shape =>
    if shape.IsFence ∧ shape.blanks = [] then some (shape.marker, shape.length, shape.info) else none := by
  have hd := drop_length_takeWhile (· == byte ' ') line
  simp only [fenceRun, fenceShape, FenceShape.IsFence]
  generalize (line.takeWhile (· == byte ' ')).length = spaces at hd
  generalize line.dropWhile (· == byte ' ') = rest at hd
  by_cases hs : spaces ≤ 3
  case neg =>
    have hm : min 4 spaces = 4 := by omega
    simp only [hm, Nat.reduceLeDiff, false_and, if_false]
    cases bodyRun (rest.dropWhile isBlank) <;> split <;> simp [hs]
  case pos =>
    have hm : min 4 spaces = spaces := by omega
    simp only [hm, hs, true_and, ← drop_drop, hd]
    cases rest
    case nil => rfl
    case cons marker rest =>
      cases hb : isBlank marker
      case true =>
        have hn : isFenceByte marker = false := by
          by_contra hf
          simp [not_isBlank_of_isFenceByte (Bool.not_eq_false _ ▸ hf)] at hb
        have hn : isFenceMarker marker = false := hn
        cases bodyRun ((marker :: rest).dropWhile isBlank) <;> simp [hn, hb]
      case false =>
        rw [dropWhile_cons_of_neg (by simp [hb]), bodyRun_cons, takeWhile_cons_of_neg (by simp [hb])]
        have hf : isFenceMarker marker = isFenceByte marker := rfl
        cases hm : isFenceByte marker <;> simp [hf, hm, hs, drop_length_takeWhile]

theorem bodyRun_rdropWhile (h : ∀ b ∈ body.head?, isBlank b = false) : bodyRun (body.rdropWhile isBlank) =
    (bodyRun body).map fun (marker, length, info) => (marker, length, info.rdropWhile isBlank) := by
  cases body
  case nil => rfl
  case cons marker body =>
    have hb : isBlank marker = false := h marker rfl
    have hc : (marker :: body).rdropWhile isBlank = marker :: body.rdropWhile isBlank :=
      rdropWhile_append_of_stop (a := [marker]) (by simpa)
    cases hm : isFenceByte marker
    case false => rw [hc, bodyRun_cons, bodyRun_cons, hm]; rfl
    case true =>
      have hstop : ∀ b ∈ ((marker :: body).dropWhile (· == marker)).head?, (b == marker) = false := fun b hb => by
        have := head?_dropWhile_not (· == marker) (marker :: body)
        simp_all
      have hrun : ∀ b ∈ (marker :: body).takeWhile (· == marker), (b == marker) = true :=
        fun b hb => mem_takeWhile_imp (p := (· == marker)) hb
      have hsplit : (marker :: body).rdropWhile isBlank = (marker :: body).takeWhile (· == marker) ++
          ((marker :: body).dropWhile (· == marker)).rdropWhile isBlank := by
        rw [← rdropWhile_append_of_stop fun b hm => by rw [eq_of_beq (hrun b hm)]; exact hb,
          takeWhile_append_dropWhile]
      have hstop' : ∀ b ∈ (((marker :: body).dropWhile (· == marker)).rdropWhile isBlank).head?,
          (b == marker) = false := fun b hb => by
        refine hstop b ?_
        have ⟨r, hr⟩ := exists_rdropWhile_append isBlank ((marker :: body).dropWhile (· == marker))
        rw [← hr, head?_append, Option.mem_def.mp hb]
        rfl
      have ht := takeWhile_append_of_stop hrun hstop'
      have hd := dropWhile_append_of_stop hrun hstop'
      rw [← hsplit, hc] at ht hd
      rw [hc, bodyRun_cons, bodyRun_cons, hm, if_pos rfl, if_pos rfl, ht, hd]
      rfl

theorem indentation_of_fenceShape (hs : fenceShape line = some shape) : indentation line = some shape.spaces := by
  have ⟨run, hb, he⟩ := Option.map_eq_some_iff.mp hs
  rw [← he]
  refine if_neg fun ha => ?_
  have hn : line.dropWhile (· == byte ' ') = [] := dropWhile_eq_nil_iff.mpr (by simpa using ha)
  rw [hn] at hb
  contradiction

theorem fenceCandidate_eq : fenceCandidate line = (fenceShape line).bind fun shape =>
    if shape.IsFence then some (shape.marker, shape.length, shape.info.rdropWhile isBlank) else none := by
  have ht : trim line = ((line.dropWhile (· == byte ' ')).dropWhile isBlank).rdropWhile isBlank := by
    rw [trim, dropWhile_dropWhile_of_imp (p := isBlank) (q := (· == byte ' ')) (by simp +contextual [isBlank])]
  have hh : ∀ b ∈ ((line.dropWhile (· == byte ' ')).dropWhile isBlank).head?, isBlank b = false := by
    have := head?_dropWhile_not isBlank (line.dropWhile (· == byte ' '))
    intro b hb
    simp_all
  rw [fenceCandidate, ht, bodyRun_rdropWhile hh]
  cases hr : bodyRun ((line.dropWhile (· == byte ' ')).dropWhile isBlank)
  case none => simp [fenceShape, hr]
  case some run =>
    have ⟨marker, length, info⟩ := run
    have hs : fenceShape line = some {
        spaces := (line.takeWhile (· == byte ' ')).length
        blanks := (line.dropWhile (· == byte ' ')).takeWhile isBlank
        marker, length, info } := by
      simp only [fenceShape, hr, Option.map_some]
    simp only [hs, indentation_of_fenceShape hs, FenceShape.IsFence, Option.filter, Option.map_some,
      Option.bind_some, Option.any_some, Bool.and_eq_true, decide_eq_true_eq]
    exact if_congr Iff.rfl rfl rfl

end

def OpenFence.key (fence : OpenFence) : UInt8 × ℕ :=
  (fence.marker, fence.length)

def Fence.key (fence : Fence) : UInt8 × ℕ :=
  (fence.marker, fence.length)

namespace FenceShape

variable (shape : FenceShape) (fence : UInt8 × ℕ)

def LintOpens : Prop :=
  shape.blanks = []

def RenderOpens : Prop :=
  shape.marker = byte '`' → byte '`' ∉ shape.info

def LintCloses : Prop :=
  shape.blanks = [] ∧ shape.marker = fence.1 ∧ fence.2 ≤ shape.length ∧ shape.info.all isSpace

def RenderCloses : Prop :=
  shape.marker = fence.1 ∧ fence.2 ≤ shape.length ∧ shape.info.all isBlank

instance : Decidable shape.LintOpens :=
  inferInstanceAs (Decidable (_ = _))

instance : Decidable shape.RenderOpens :=
  inferInstanceAs (Decidable (_ → _))

instance : Decidable (shape.LintCloses fence) :=
  inferInstanceAs (Decidable (_ ∧ _))

instance : Decidable (shape.RenderCloses fence) :=
  inferInstanceAs (Decidable (_ ∧ _))

end FenceShape

-- The lint and the renderer take such a line differently, outside of fences or in an open one.
inductive Divergent : Option (UInt8 × ℕ) → FenceShape → Prop
  | infoBacktick : shape.blanks = [] → shape.marker = byte '`' → byte '`' ∈ shape.info →
    Divergent none shape
  | blankOpening : shape.blanks ≠ [] → (shape.marker = byte '`' → byte '`' ∉ shape.info) →
    Divergent none shape
  | feedClosing  : shape.blanks = [] → shape.marker = fence.1 → fence.2 ≤ shape.length →
    shape.info.all isSpace → ¬shape.info.all isBlank → Divergent (some fence) shape
  | blankClosing : shape.blanks ≠ [] → shape.marker = fence.1 → fence.2 ≤ shape.length →
    shape.info.all isBlank → Divergent (some fence) shape

def Diverges (fence : Option (UInt8 × ℕ)) (line : Bytes) : Prop :=
  ∃ shape ∈ fenceShape line, shape.IsFence ∧ Divergent fence shape

-- The fence that is open after a line.
def FenceLine.next (fence : Option Fence) : FenceLine → Option Fence
  | closing      => none
  | code | text  => fence
  | opening next => some next

section

variable {line : Bytes} {shape : FenceShape} {fence : UInt8 × ℕ}

theorem isSpace_of_isBlank {info : Bytes} (h : info.all isBlank) : info.all isSpace := by
  have hi : ∀ b, isBlank b → isSpace b := fun b hb => by
    simp only [isBlank, Bool.or_eq_true, beq_iff_eq, or_assoc] at hb
    rcases hb with hb | hb | hb <;> (subst hb; rfl)
  rw [all_eq_true] at h ⊢
  exact fun b hb => hi b (h b hb)

theorem trim_rdropWhile {info : Bytes} : (trim (info.rdropWhile isBlank)).isEmpty = info.all isBlank := by
  rw [trim, isEmpty_rdropWhile_dropWhile, Bool.eq_iff_iff, all_eq_true, all_eq_true]
  constructor
  case mp =>
    intro h b hb
    by_contra hn
    exact hn <| h b <| (mem_rdropWhile_iff (by simpa using hn)).mpr hb
  case mpr => exact fun h b hb => h b <| rdropWhile_prefix _ _ |>.subset hb

theorem divergent_none_iff : Divergent none shape ↔ ¬(shape.LintOpens ↔ shape.RenderOpens) := by
  constructor
  case mp =>
    intro h ho
    match h with
    | .infoBacktick hb hm hi => exact ho.mp hb hm hi
    | .blankOpening hb hi    => exact hb (ho.mpr hi)
  case mpr =>
    intro h
    by_cases hb : shape.blanks = []
    case pos =>
      have hn : ¬shape.RenderOpens := fun hr => h <| iff_of_true hb hr
      have ⟨hm, hi⟩ := Classical.not_imp.mp hn
      exact .infoBacktick hb hm (not_not.mp hi)
    case neg => exact .blankOpening hb <| by_contra fun hr => h <| iff_of_false hb hr

theorem divergent_some_iff :
    Divergent (some fence) shape ↔ ¬(shape.LintCloses fence ↔ shape.RenderCloses fence) := by
  constructor
  case mp =>
    intro h hc
    match h with
    | .feedClosing hb hm hl hs hn => exact hn (hc.mp ⟨hb, hm, hl, hs⟩).right.right
    | .blankClosing hb hm hl hi   => exact hb (hc.mpr ⟨hm, hl, hi⟩).left
  case mpr =>
    intro h
    by_cases hr : shape.RenderCloses fence
    case pos =>
      have ⟨hm, hl, hi⟩ := hr
      exact .blankClosing (fun hb => h <| iff_of_true ⟨hb, hm, hl, isSpace_of_isBlank hi⟩ hr) hm hl hi
    case neg =>
      have hc : shape.LintCloses fence := by_contra fun hc => h <| iff_of_false hc hr
      have ⟨hb, hm, hl, hs⟩ := hc
      exact .feedClosing hb hm hl hs fun hi => hr ⟨hm, hl, hi⟩

variable {lineNumber : ℕ}

theorem lintFence_none (hs : fenceShape line = some shape) (hf : shape.IsFence) :
    lintFence none lineNumber line = if shape.LintOpens then
      (some { marker := shape.marker, length := shape.length, line := lineNumber }, true)
    else
      (none, false) := by
  by_cases hb : shape.blanks = [] <;> simp [lintFence, fenceRun_eq, hs, hf, FenceShape.LintOpens, hb]

theorem lintFence_some {fence : OpenFence} (hs : fenceShape line = some shape) (hf : shape.IsFence) :
    lintFence (some fence) lineNumber line =
      if shape.LintCloses fence.key then (none, true) else (some fence, false) := by
  have hi := isEmpty_rdropWhile_dropWhile isSpace shape.info
  by_cases hb : shape.blanks = []
  case pos =>
    simp only [lintFence, fenceRun_eq, hs, hf, hb, Option.bind_some, and_self, if_true, trimmed, hi]
    refine if_congr ?_ rfl rfl
    rw [FenceShape.LintCloses, and_iff_right hb, eq_comm]
    rfl
  case neg => simp [lintFence, fenceRun_eq, hs, hb, FenceShape.LintCloses]

theorem fenceLine_none (hs : fenceShape line = some shape) (hf : shape.IsFence) :
    fenceLine line none = if shape.RenderOpens then
      .opening { marker := shape.marker, length := shape.length, indent := (indentation line).getD 0 }
    else
      .text := by
  have hi : byte '`' ∈ shape.info.rdropWhile isBlank ↔ byte '`' ∈ shape.info := mem_rdropWhile_iff rfl
  simp only [fenceLine, fenceCandidate_eq, hs, hf, Option.bind_some, if_true, hi]
  exact if_congr imp_iff_not_or.symm rfl rfl

theorem fenceLine_some {fence : Fence} (hs : fenceShape line = some shape) (hf : shape.IsFence) :
    fenceLine line (some fence) = if shape.RenderCloses fence.key then .closing else .code := by
  simp only [fenceLine, fenceCandidate_eq, hs, hf, Option.bind_some, if_true, trim_rdropWhile]
  rfl

theorem not_fence (lineNumber : ℕ) (h : ∀ shape ∈ fenceShape line, ¬shape.IsFence) :
    (∀ fence, lintFence fence lineNumber line = (fence, false)) ∧
    ∀ fence, fenceLine line fence = if fence.isSome then .code else .text := by
  have hr : fenceRun line = none := by
    rw [fenceRun_eq, Option.bind_eq_none_iff]
    exact fun shape hs => if_neg fun hf => h shape hs hf.left
  have hc : fenceCandidate line = none := by
    rw [fenceCandidate_eq, Option.bind_eq_none_iff]
    exact fun shape hs => if_neg (h shape hs)
  constructor
  case left  => intro fence; simp only [lintFence, hr]
  case right => intro fence; cases fence <;> simp [fenceLine, hc]

-- From one state, a line keeps the two together unless they take it differently.
theorem fence_step {openFence : Option OpenFence} {fence : Option Fence} (lineNumber : ℕ)
    (h : openFence.map OpenFence.key = fence.map Fence.key) :
    let next := lintFence openFence lineNumber line
    let kind := fenceLine line fence
    (next.1.map OpenFence.key = (kind.next fence).map Fence.key ↔
      ¬Diverges (openFence.map OpenFence.key) line) ∧
    (¬Diverges (openFence.map OpenFence.key) line → (checksLinks next ↔ kind = .text)) := by
  by_cases hf : ∃ shape ∈ fenceShape line, shape.IsFence
  case neg =>
    have hn : ∀ shape ∈ fenceShape line, ¬shape.IsFence := fun shape hs hf' => hf ⟨shape, hs, hf'⟩
    have hd : ¬Diverges (openFence.map OpenFence.key) line := fun ⟨shape, hs, hf', _⟩ => hf ⟨shape, hs, hf'⟩
    have ⟨hl, hr⟩ := not_fence lineNumber hn
    simp only [hl, hr]
    cases openFence <;> cases fence <;> simp_all [FenceLine.next, checksLinks]
  case pos =>
    have ⟨shape, hs, hf⟩ := hf
    have hd : Diverges (openFence.map OpenFence.key) line ↔ Divergent (openFence.map OpenFence.key) shape :=
      ⟨fun ⟨_, hs', _, hd⟩ => Option.mem_unique hs hs' ▸ hd, fun hd => ⟨shape, hs, hf, hd⟩⟩
    rw [hd]
    cases openFence <;> cases fence
    case none.none =>
      rw [lintFence_none hs hf, fenceLine_none hs hf, Option.map_none, divergent_none_iff, not_not]
      by_cases hl : shape.LintOpens <;> by_cases hr : shape.RenderOpens <;>
        simp [hl, hr, FenceLine.next, checksLinks, OpenFence.key, Fence.key]
    case some.some openFence fence =>
      have hk : openFence.key = fence.key := Option.some.inj h
      rw [lintFence_some hs hf, fenceLine_some hs hf, Option.map_some, divergent_some_iff, not_not, hk]
      by_cases hl : shape.LintCloses fence.key <;> by_cases hr : shape.RenderCloses fence.key <;>
        simp [hl, hr, hk, FenceLine.next, checksLinks]
    all_goals contradiction

end

-- What is left of the lint and of the renderer when only the open fences count.
def lintNext (state : Option OpenFence × ℕ) (line : Bytes) : Option OpenFence × ℕ :=
  ((lintFence state.1 (state.2 + 1) (chompReturn line)).1, state.2 + 1)

def renderNext (color : Bool) (state : MarkdownState) (line : Bytes) : MarkdownState :=
  (renderLine (chompReturn line) color state).2

section

variable {color : Bool} {line : Bytes} {state : MarkdownState}

theorem renderLines_eq (input : List Bytes) :
    (renderLines color state input).2 = input.foldl (renderNext color) state := by
  induction input generalizing state
  case nil               => rfl
  case cons line rest hi => exact hi

theorem fence_renderNext : (renderNext color state line).fence =
    (fenceLine (chompReturn line) state.fence).next state.fence := by
  rw [renderNext, renderLine]
  cases fenceLine (chompReturn line) state.fence <;> rfl

theorem splits : Lockstep.Splits lintNext (renderNext color) (·.1.map OpenFence.key)
    (·.fence.map Fence.key) fun fence line => Diverges fence (chompReturn line) := by
  intro state state' line h
  simp only [fence_renderNext]
  exact (fence_step (state.2 + 1) h).left

variable {targets : LinkTargets} {root : Bytes} {entry : KnowledgeEntry} {openFence : Option OpenFence}
  {lineNumber : ℕ}

def IsUnclosedFence (diagnostic : Diagnostic) : Prop :=
  startsWith diagnostic.message (ascii "unclosed Markdown code fence")

theorem not_unclosed_linkDiagnostic {message : String} {suffix : Bytes}
    (h : (ascii message).take 3 ≠ ascii "unc" ∧ 3 ≤ (ascii message).length) :
    ¬IsUnclosedFence (linkDiagnostic entry message lineNumber suffix) := by
  intro hu
  have ⟨rest, hr⟩ := isPrefixOf_iff_prefix.mp hu
  have ht := congrArg (take 3) hr
  simp only [linkDiagnostic, addLintDiagnostic, addDiagnostic, append_assoc] at ht
  rw [take_append_of_le_length h.right] at ht
  exact h.left <| ht.symm.trans rfl

theorem not_unclosed_of_mem_lintTarget {target : Bytes} {diagnostic : Diagnostic}
    (h : diagnostic ∈ lintTarget targets root entry lineNumber target) : ¬IsUnclosedFence diagnostic := by
  simp only [lintTarget] at h
  split_ifs at h
  all_goals first
    | contradiction
    | rw [mem_singleton.mp h]; exact not_unclosed_linkDiagnostic (by decide)

theorem not_unclosed_of_mem_links {text : Bytes} {diagnostic : Diagnostic}
    (h : diagnostic ∈ lintMarkdownLinks targets root entry lineNumber text) :
    ¬IsUnclosedFence diagnostic := by
  fun_induction lintMarkdownLinks targets root entry lineNumber text
  case case1 => contradiction
  case case2 =>
    rw [mem_singleton.mp h]
    exact not_unclosed_linkDiagnostic (by decide)
  case case3 hi => exact (mem_append.mp h).elim not_unclosed_of_mem_lintTarget hi

-- The lint reports a fence exactly if one is open after the last line.
theorem unclosed_iff (input : List Bytes) :
    (∃ diagnostic ∈ lintLines targets root entry openFence lineNumber input, IsUnclosedFence diagnostic) ↔
      (input.foldl lintNext (openFence, lineNumber)).1.isSome := by
  induction input generalizing openFence lineNumber
  case nil =>
    cases openFence
    case none => simp [lintLines]
    case some fence =>
      have ha : ascii "unclosed Markdown code fence opened on line " =
          ascii "unclosed Markdown code fence" ++ ascii " opened on line " := by decide
      refine iff_of_true ⟨_, mem_singleton_self _, isPrefixOf_iff_prefix.mpr ?_⟩ rfl
      simp only [addLintDiagnostic, addDiagnostic, ha, append_assoc]
      exact prefix_append _ _
  case cons line rest hi =>
    rw [foldl_cons, lintNext, ← hi, lintLines]
    simp only [mem_append, or_and_right, exists_or]
    refine or_iff_right fun ⟨diagnostic, hm, hu⟩ => ?_
    split at hm
    case isTrue  => exact not_unclosed_of_mem_links hm hu
    case isFalse => contradiction

end

-- What the lint and the renderer would have to agree on.
structure FencesAgree (targets : LinkTargets) (root : Bytes) (entry : KnowledgeEntry) (color : Bool) :
    Prop where
  state    : Lockstep.Agree lintNext (renderNext color) (·.1.map OpenFence.key) (·.fence.map Fence.key)
    (none, 0) {} (lines entry.content)
  unclosed : (∃ diagnostic ∈ lintMarkdown targets root entry, IsUnclosedFence diagnostic) ↔
    (renderLines color {} (lines entry.content)).2.fence.isSome
  links    : ∀ before line after, lines entry.content = before ++ line :: after →
    let openFence := (before.foldl lintNext (none, 0)).1
    let fence     := (renderLines color {} before).2.fence
    (checksLinks (lintFence openFence (before.length + 1) (chompReturn line)) ↔
      fenceLine (chompReturn line) fence = .text)

-- They agree on the contents none of whose lines they take differently.
theorem fencesAgree_iff (targets : LinkTargets) (root : Bytes) (entry : KnowledgeEntry) (color : Bool) :
    FencesAgree targets root entry color ↔
      ∀ before line after, lines entry.content = before ++ line :: after →
        ¬Diverges ((before.foldl lintNext (none, 0)).1.map OpenFence.key) (chompReturn line) := by
  have ha : Lockstep.Agree lintNext (renderNext color) _ _ (none, 0) {} (lines entry.content) ↔ _ :=
    Lockstep.agree_iff splits rfl
  constructor
  case mp  => exact fun h => ha.mp h.state
  case mpr =>
    intro h
    have hs := ha.mpr h
    constructor
    case state => exact hs
    case unclosed =>
      rw [lintMarkdown, unclosed_iff, renderLines_eq]
      have := congrArg Option.isSome <| hs _ [] (append_nil _).symm
      simpa using this
    case links =>
      intro before line after hb
      have hk := hs before _ hb
      rw [← renderLines_eq] at hk
      exact (fence_step (before.length + 1) hk).right (h before line after hb)

-- A paragraph that starts with code between three backticks.
def inlineCode : KnowledgeEntry where
  id              := ascii "list-files"
  title           := ascii "List files"
  type            := ascii "howto"
  command         := ascii "ls"
  aliases         := []
  keywords        := []
  related         := []
  intents         := []
  difficulty      := []
  platforms       := []
  tags            := []
  examples        := []
  category        := ascii "files"
  sourceDirectory := ascii "knowledge/files/list-files"
  content         := ascii "```ls -l``` lists the files.\n"

-- The lint opens a fence there and the renderer does not.
theorem fences_disagree :
    ¬FencesAgree ⟨fun _ => true, some⟩ (ascii "knowledge") inlineCode false := by
  intro h
  have hl : lines inlineCode.content = [ascii "```ls -l``` lists the files."] := by decide +kernel
  have hs := h.state [ascii "```ls -l``` lists the files."] [] hl
  exact absurd hs (by decide)

end Howlinux
