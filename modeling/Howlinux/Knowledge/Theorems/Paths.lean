import Howlinux.Knowledge.Directory
import Howlinux.Knowledge.Lint

open Bytes List

namespace Howlinux

-- The names that resolving the parts of a path can leave, the last one first: no path goes up after it
-- has gone down, and none goes up from the root.
inductive Resolved (absolute : Bool) : List Bytes → Prop
  | nil  : Resolved absolute []
  | up   : absolute = false → (∀ name ∈ names, name = ascii "..") → Resolved absolute names →
    Resolved absolute (ascii ".." :: names)
  | down : IsName name → name ≠ ascii ".." → Resolved absolute names → Resolved absolute (name :: names)

section

variable {absolute : Bool} {names parts : List Bytes} {name path : Bytes}

theorem isName_up : IsName (ascii "..") := by
  decide

theorem Resolved.isName (h : Resolved absolute names) : ∀ name ∈ names, IsName name := by
  induction h
  case nil => simp
  case up hi => exact forall_mem_cons.mpr ⟨isName_up, hi⟩
  case down hn _ _ hi => exact forall_mem_cons.mpr ⟨hn, hi⟩

theorem Resolved.resolveNames (h : Resolved absolute names) (hs : byte '/' ∉ name) :
    Resolved absolute (Howlinux.resolveNames absolute names name) := by
  unfold Howlinux.resolveNames
  split
  case isTrue => exact h
  case isFalse hn =>
    simp only [Bool.or_eq_true, List.isEmpty_iff, beq_iff_eq, not_or] at hn
    split
    case isFalse hu => exact .down ⟨hn.left, hn.right, hs⟩ (by simpa using hu) h
    case isTrue hu =>
      rw [eq_of_beq hu]
      cases h
      case nil =>
        cases absolute
        case false => exact .up rfl (by simp) .nil
        case true  => exact .nil
      case up ha hr h => exact .up ha (forall_mem_cons.mpr ⟨rfl, hr⟩) (.up ha hr h)
      case down hd h =>
        simp only [beq_iff_eq, hd, if_false]
        exact h

theorem resolved_foldl (hs : ∀ part ∈ parts, byte '/' ∉ part) (h : Resolved absolute names) :
    Resolved absolute (parts.foldl (resolveNames absolute) names) := by
  induction parts generalizing names
  case nil => exact h
  case cons part parts hi =>
    have ⟨hp, hs⟩ := forall_mem_cons.mp hs
    exact hi hs <| h.resolveNames hp

-- What is resolved stays as it is.
theorem Resolved.foldl_reverse (h : Resolved absolute names) :
    names.reverse.foldl (Howlinux.resolveNames absolute) [] = names := by
  induction h
  case nil => rfl
  case up names ha hr _ hi =>
    rw [reverse_cons, foldl_append, hi, foldl_cons, foldl_nil]
    rcases names with _ | ⟨last, up⟩
    case nil  => simp [Howlinux.resolveNames, ha, ascii]
    case cons => simp [Howlinux.resolveNames, hr last mem_cons_self, ascii]
  case down hn hu _ hi =>
    rw [reverse_cons, foldl_append, hi, foldl_cons, foldl_nil]
    simp [Howlinux.resolveNames, hn.ne_nil, hn.ne_dot, hu]

theorem resolveNames_nil : resolveNames absolute names [] = names :=
  rfl

-- The text of a path with given names.
def pathOf (absolute : Bool) (names : List Bytes) (open' : Bool) : Bytes :=
  (if absolute then [byte '/'] else []) ++ [byte '/'].intercalate names.reverse ++ (if open' then [byte '/'] else [])

def partsOf (absolute : Bool) (names : List Bytes) (open' : Bool) : List Bytes :=
  (if absolute then [[]] else []) ++ names.reverse ++ if open' then [[]] else []

theorem pathOf_eq_intercalate (hn : names ≠ []) (open' : Bool) :
    pathOf absolute names open' = [byte '/'].intercalate (partsOf absolute names open') := by
  have hr : names.reverse ≠ [] := by simpa using hn
  have hf (texts : List Bytes) (h : texts ≠ []) : [byte '/'].intercalate ([] :: texts) =
      byte '/' :: [byte '/'].intercalate texts := by
    cases texts
    case nil  => contradiction
    case cons => simp [intercalate_cons_cons]
  have hl := @intercalate_concat [byte '/'] [] names.reverse hr
  unfold pathOf partsOf
  cases absolute <;> cases open'
  case false.false => simp
  case false.true  => simp [hl]
  case true.false  => simp [hf _ hr]
  case true.true   => simp [hf _ (append_ne_nil_of_left_ne_nil hr _), hl]

theorem splitOn_pathOf (h : Resolved absolute names) (hn : names ≠ []) (open' : Bool) :
    (pathOf absolute names open').splitOn (byte '/') = partsOf absolute names open' := by
  rw [pathOf_eq_intercalate hn]
  refine splitOn_intercalate _ (fun part hm => ?_) (by simp [partsOf, hn])
  simp only [partsOf, mem_append, mem_reverse] at hm
  rcases hm with (hm | hm) | hm
  case inl.inr => exact (h.isName part hm).no_slash
  all_goals
    split at hm <;> simp_all

theorem foldl_partsOf (h : Resolved absolute names) (open' : Bool) :
    (partsOf absolute names open').foldl (resolveNames absolute) [] = names := by
  unfold partsOf
  rw [foldl_append, foldl_append]
  cases absolute <;> cases open' <;> simp [h.foldl_reverse, resolveNames_nil]

theorem Resolved.head_pathOf (h : Resolved absolute names) (hn : names ≠ []) (open' : Bool) :
    ((pathOf absolute names open').head? == some (byte '/')) = absolute := by
  cases absolute
  case true => simp [pathOf]
  case false =>
    obtain ⟨upper, name, rfl⟩ := eq_nil_or_concat names |>.resolve_left hn
    obtain ⟨hne, _, hs⟩ := h.isName name (by simp)
    obtain ⟨b, name, rfl⟩ := exists_cons_of_ne_nil hne
    have hb : b ≠ byte '/' := fun hb => hs <| hb ▸ mem_cons_self
    rw [pathOf, concat_eq_append, reverse_append, reverse_singleton, singleton_append]
    cases upper.reverse <;> simp [intercalate_cons_cons, hb]

-- The last part is empty, or else the last name.
theorem getLastD_partsOf (hn : names ≠ []) (open' : Bool) :
    (partsOf absolute names open').getLastD [] = if open' then [] else names.head hn := by
  cases open'
  case true  => simp [partsOf]
  case false => simp [partsOf, getLast?_append, head?_eq_some_head hn]

theorem lexicallyNormal_of_ne_nil (hp : path ≠ []) : lexicallyNormal path =
    let absolute := path.head? == some (byte '/')
    let parts    := path.splitOn (byte '/')
    let names    := parts.foldl (resolveNames absolute) []
    let normal   := pathOf absolute names <| [[], ascii ".", ascii ".."].contains (parts.getLastD []) &&
      names.head?.any (· != ascii "..")
    if normal.isEmpty then ascii "." else normal := by
  unfold lexicallyNormal
  rw [isEmpty_eq_false_iff.mpr hp]
  rfl

theorem Resolved.pathOf_ne_nil (h : Resolved absolute names) (hn : names ≠ []) (open' : Bool) :
    pathOf absolute names open' ≠ [] := fun hp => by
  have hs := splitOn_pathOf h hn open'
  have hf := foldl_partsOf h open'
  rw [hp, splitOn_nil] at hs
  rw [← hs] at hf
  exact hn hf.symm

theorem Resolved.lexicallyNormal_pathOf (h : Resolved absolute names) (hn : names ≠ []) {open' : Bool}
    (ho : open' → names.head?.any (· != ascii "..")) :
    lexicallyNormal (pathOf absolute names open') = pathOf absolute names open' := by
  have hp := h.pathOf_ne_nil hn open'
  have hl : ([[], ascii ".", ascii ".."].contains ((partsOf absolute names open').getLastD []) &&
      names.head?.any (· != ascii "..")) = open' := by
    rw [getLastD_partsOf hn]
    cases open'
    case true  => simpa using ho rfl
    case false =>
      have hm := h.isName _ (head_mem hn)
      simp [head?_eq_some_head hn, hm.ne_nil, hm.ne_dot]
  rw [lexicallyNormal_of_ne_nil hp]
  simp only [h.head_pathOf hn, splitOn_pathOf h hn, foldl_partsOf h, hl]
  rw [isEmpty_eq_false_iff.mpr hp]
  rfl

theorem notMem_of_mem_splitOn {part : Bytes} (h : part ∈ path.splitOn (byte '/')) : byte '/' ∉ part := by
  induction path generalizing part
  case nil => simp_all
  case cons b path hi =>
    rw [splitOn_cons_eq_if_modifyHead] at h
    split at h
    case isTrue =>
      rcases mem_cons.mp h with rfl | h
      case inl => exact not_mem_nil
      case inr => exact hi h
    case isFalse hb =>
      obtain ⟨first, parts, hs⟩ := exists_cons_of_ne_nil <| splitOn_ne_nil (byte '/') path
      rw [hs, modifyHead_cons] at h
      rcases mem_cons.mp h with rfl | h
      case inl =>
        have := hi <| hs ▸ mem_cons_self
        simp_all [Ne.symm]
      case inr => exact hi <| hs ▸ mem_cons_of_mem _ h

-- A path in normal form stays as it is.
theorem lexicallyNormal_lexicallyNormal (path : Bytes) :
    lexicallyNormal (lexicallyNormal path) = lexicallyNormal path := by
  by_cases hp : path = []
  case pos => simp [hp, lexicallyNormal]
  case neg =>
    rw [lexicallyNormal_of_ne_nil hp]
    dsimp only
    generalize (path.head? == some (byte '/')) = absolute
    have hr : Resolved absolute ((path.splitOn <| byte '/').foldl (resolveNames absolute) []) :=
      resolved_foldl (fun _ => notMem_of_mem_splitOn) .nil
    generalize (path.splitOn <| byte '/').foldl (resolveNames absolute) [] = names at hr
    generalize [[], ascii ".", ascii ".."].contains ((path.splitOn <| byte '/').getLastD []) = last
    by_cases hn : names = []
    case pos =>
      subst hn
      cases absolute <;> cases last <;> decide
    case neg =>
      rw [isEmpty_eq_false_iff.mpr <| hr.pathOf_ne_nil hn _]
      exact hr.lexicallyNormal_pathOf hn fun h => (Bool.and_eq_true _ _ ▸ h).right

theorem head_lexicallyNormal (h : path.head? = some (byte '/')) :
    (lexicallyNormal path).head? = some (byte '/') := by
  have hp : path ≠ [] := fun hp => by simp [hp] at h
  rw [lexicallyNormal_of_ne_nil hp, h]
  simp [pathOf]

end

section

variable {elements elements' : List Bytes}

theorem commonLength_cons {element element' : Bytes} :
    commonLength (element :: elements) (element' :: elements') =
      if element = element' then commonLength elements elements' + 1 else 0 := by
  by_cases h : element = element' <;> simp [commonLength, h]

theorem drop_commonLength_eq_nil_iff :
    elements'.drop (commonLength elements elements') = [] ↔ elements' <+: elements := by
  induction elements' generalizing elements
  case nil => simp
  case cons element' elements' hi =>
    cases elements
    case nil => simp [commonLength]
    case cons element elements =>
      rw [commonLength_cons, cons_prefix_cons]
      by_cases h : element = element'
      case pos => simp [h, hi]
      case neg => simp [h, Ne.symm h]

end

section

variable {names rootNames : List Bytes} {targets : LinkTargets} {path root : Bytes}

theorem Resolved.ne_up {name : Bytes} (h : Resolved true names) (hm : name ∈ names) : name ≠ ascii ".." := by
  induction h
  case nil          => contradiction
  case up hf _ _ _  => contradiction
  case down hd _ hi =>
    rcases mem_cons.mp hm with rfl | hm
    case inl => exact hd
    case inr => exact hi hm

theorem Resolved.pathElements_pathOf (h : Resolved true names) :
    pathElements (pathOf true names false) = [byte '/'] :: names.reverse := by
  by_cases hn : names = []
  case pos =>
    subst hn
    decide
  case neg =>
    have ha : isAbsolute (pathOf true names false) := h.head_pathOf hn false
    have hl : ((partsOf true names false).getLastD []).isEmpty = false := by
      rw [getLastD_partsOf hn]
      exact isEmpty_eq_false_iff.mpr (h.isName _ (head_mem hn)).ne_nil
    have hf : (partsOf true names false).filter (!·.isEmpty) = names.reverse := by
      have hs : ∀ name ∈ names.reverse, (!name.isEmpty) = true := fun name hm => by
        simpa using (h.isName name (mem_reverse.mp hm)).ne_nil
      simp [partsOf, filter_eq_self.mpr hs]
    simp only [pathElements, ha, splitOn_pathOf h hn, hf, hl, if_true, Bool.and_false, Bool.false_eq_true, if_false]
    simp

-- A target leaves the root exactly if its canonical names do not start with those of the root.
theorem pathEscapesRoot_iff (h : Resolved true names) (hr : Resolved true rootNames)
    (hp : targets.weaklyCanonical path = some (pathOf true names false))
    (hq : targets.weaklyCanonical root = some (pathOf true rootNames false)) :
    pathEscapesRoot targets path root ↔ ¬rootNames.reverse <+: names.reverse := by
  have ha (names : List Bytes) : isAbsolute (pathOf true names false) = true := by simp [isAbsolute, pathOf]
  have hl := @drop_commonLength_eq_nil_iff names.reverse rootNames.reverse
  simp only [pathEscapesRoot, hp, hq, lexicallyRelative, h.pathElements_pathOf, hr.pathElements_pathOf, ha,
    commonLength_cons, if_true, drop_succ_cons]
  generalize commonLength names.reverse rootNames.reverse = common at hl ⊢
  have hup : (rootNames.reverse.drop common).countP
      (fun name => !name.isEmpty && name != ascii "." && name != ascii "..") =
        (rootNames.reverse.drop common).length := countP_eq_length.mpr fun name hm => by
    have hm := mem_reverse.mp (mem_of_mem_drop hm)
    have hi := hr.isName name hm
    simp [hi.ne_nil, hi.ne_dot, hr.ne_up hm]
  have hdown : (rootNames.reverse.drop common).count (ascii "..") = 0 := count_eq_zero.mpr fun hm =>
    hr.ne_up (mem_reverse.mp (mem_of_mem_drop hm)) rfl
  rw [hup, hdown, ← hl]
  cases hd : rootNames.reverse.drop common
  case nil =>
    have hh : (names.reverse.drop common).head? ≠ some (ascii "..") := fun hh =>
      h.ne_up (mem_reverse.mp (mem_of_mem_drop (mem_of_mem_head? hh))) rfl
    have hd : (ascii ".") ≠ ascii ".." := by decide
    split_ifs <;> simp_all
  case cons => simp [replicate_succ]

end

end Howlinux
