import Howlinux.Markdown.Theorems.Fences

open Bytes List

namespace Howlinux

-- Every closing parenthesis has an opening one before it, and the other way around.
structure Balanced (text : Bytes) : Prop where
  starts : ∀ start ∈ text.inits, start.count (byte ')') ≤ start.count (byte '(')
  whole  : text.count (byte '(') = text.count (byte ')')

-- A link of a line: what is before its bracket, its label and its destination.
structure IsLink (before label destination : Bytes) : Prop where
  before   : ∀ b ∈ before, b ∉ ascii "[](`\\*_"
  label    : ∀ b ∈ label, b ∉ ascii "[]"
  nonempty : destination ≠ []
  relative : destination.head? ≠ some (byte '/')
  plain    : ∀ b ∈ destination, isSpace b = false ∧ b ∉ ascii "#?<>"
  balanced : Balanced destination

def linkLine (before label destination rest : Bytes) : Bytes :=
  before ++ byte '[' :: label ++ ascii "](" ++ destination ++ byte ')' :: rest

def linkOutput (label destination : Bytes) (color : Bool) : Bytes :=
  styled label "4" color ++ if destination = label then [] else ascii " (" ++ literal destination ++ ascii ")"

section

variable {text rest : Bytes} {depth : ℕ}

theorem closingParenthesis_append (hs : ∀ start, start <+: text →
      start.count (byte ')') < depth + start.count (byte '('))
    (hw : depth + text.count (byte '(') = text.count (byte ')') + 1) :
    closingParenthesis depth (text ++ byte ')' :: rest) = some text.length := by
  have hne : byte ')' ≠ byte '(' := by decide
  induction text generalizing depth
  case nil =>
    have hd : depth = 1 := by simpa using hw
    simp [closingParenthesis, hne, hd]
  case cons b text hi =>
    have hs' (start : Bytes) (h : start <+: text) := hs (b :: start) <| (prefix_cons_inj b).mpr h
    simp only [count_cons, beq_iff_eq] at hs' hw
    rw [cons_append, closingParenthesis]
    by_cases ho : b = byte '('
    case pos =>
      simp only [ho, hne.symm, if_true, if_false, add_zero] at hs' hw ⊢
      rw [hi (fun start h => by have := hs' start h; omega) (by omega)]
      simp
    case neg =>
      by_cases hc : b = byte ')'
      case pos =>
        simp only [hc, hne, if_true, if_false, add_zero] at hs' hw ⊢
        have h := hs' [] nil_prefix
        simp only [count_nil, zero_add, add_zero] at h
        rw [if_neg (by omega), hi (fun start h => by have := hs' start h; omega) (by omega)]
        simp
      case neg =>
        simp only [ho, hc, if_false, add_zero] at hs' hw ⊢
        rw [hi hs' hw]
        simp

theorem Balanced.closingParenthesis (h : Balanced text) :
    Howlinux.closingParenthesis 1 (text ++ byte ')' :: rest) = some text.length := by
  refine closingParenthesis_append (fun start hp => ?_) (by rw [h.whole, add_comm])
  have := h.starts start <| (mem_inits _ _).mpr hp
  omega

end

-- What the file system answers about a path is the same.
def LinkTargets.Agrees (targets targets' : LinkTargets) (root path : Bytes) : Prop :=
  targets.isPresent path = targets'.isPresent path ∧
    pathEscapesRoot targets path root = pathEscapesRoot targets' path root

section

variable {targets targets' : LinkTargets} {root : Bytes} {entry : KnowledgeEntry} {lineNumber : ℕ}
  {text link target rest : Bytes} {b : UInt8}

theorem lintMarkdownLinks_nil : lintMarkdownLinks targets root entry lineNumber [] = [] := by
  rw [lintMarkdownLinks]
  rfl

theorem lintMarkdownLinks_of_cut {before : Bytes} (hl : cut text (ascii "](") = some (before, link))
    (ht : cut link (ascii ")") = some (target, rest)) :
    lintMarkdownLinks targets root entry lineNumber text =
      lintTarget targets root entry lineNumber (linkTarget target) ++
        lintMarkdownLinks targets root entry lineNumber rest := by
  rw [lintMarkdownLinks, hl]
  simp only []
  rw [ht]

theorem lintMarkdownLinks_cons (h : ¬ascii "](" <+: b :: text) :
    lintMarkdownLinks targets root entry lineNumber (b :: text) =
      lintMarkdownLinks targets root entry lineNumber text := by
  rw [lintMarkdownLinks, lintMarkdownLinks, cut_cons h]
  cases cut text (ascii "](") <;> rfl

theorem lintMarkdownLinks_link (h : byte ')' ∉ target) :
    lintMarkdownLinks targets root entry lineNumber (ascii "](" ++ target ++ byte ')' :: rest) =
      lintTarget targets root entry lineNumber (linkTarget target) ++
        lintMarkdownLinks targets root entry lineNumber rest := by
  have hl : cut (ascii "](" ++ (target ++ byte ')' :: rest)) (ascii "](") =
      some ([], target ++ byte ')' :: rest) := cut_append_of_notMem not_mem_nil
  have ht : cut (target ++ byte ')' :: rest) (ascii ")") = some (target, rest) := by
    rw [append_cons]
    exact cut_append_of_notMem h
  exact append_assoc .. ▸ lintMarkdownLinks_of_cut hl ht

theorem link_prefix_of_append (h : ascii "](" <+: text ++ byte ')' :: rest) : ascii "](" <+: text := by
  have hl : ascii "](" = [byte ']', byte '('] := by decide
  have hb : byte '(' ≠ byte ')' ∧ byte ']' ≠ byte ')' := by decide
  rw [hl] at h ⊢
  match text with
  | []          => simp [hb.right] at h
  | [_]         => simp [hb.left] at h
  | _ :: _ :: _ => simpa using h

-- What ends in a closing parenthesis is checked on its own.
theorem lintMarkdownLinks_append :
    lintMarkdownLinks targets root entry lineNumber (text ++ byte ')' :: rest) =
      lintMarkdownLinks targets root entry lineNumber (text ++ [byte ')']) ++
        lintMarkdownLinks targets root entry lineNumber rest := by
  induction hl : text.length using Nat.strong_induction_on generalizing text
  case h n hi =>
    by_cases hp : ascii "](" <+: text
    case pos =>
      obtain ⟨link, rfl⟩ := hp
      by_cases hm : byte ')' ∈ link
      case pos =>
        obtain ⟨target, link, rfl, ht⟩ := eq_append_cons_of_mem hm
        have hn : link.length < n := by rw [← hl]; simp; omega
        simp only [← append_assoc, append_assoc _ (byte ')' :: link), cons_append]
        rw [lintMarkdownLinks_link ht, lintMarkdownLinks_link ht, hi _ hn rfl, append_assoc]
      case neg =>
        rw [lintMarkdownLinks_link hm, lintMarkdownLinks_link hm, lintMarkdownLinks_nil, append_nil]
    case neg =>
      cases text
      case nil =>
        have hc (rest : Bytes) : ¬ascii "](" <+: byte ')' :: rest := fun h => hp (link_prefix_of_append h)
        rw [nil_append, nil_append, lintMarkdownLinks_cons (hc _), lintMarkdownLinks_cons (hc _),
          lintMarkdownLinks_nil, nil_append]
      case cons b text =>
        have hc (rest : Bytes) : ¬ascii "](" <+: b :: (text ++ byte ')' :: rest) :=
          fun h => hp (link_prefix_of_append h)
        rw [cons_append, cons_append, lintMarkdownLinks_cons (hc _), lintMarkdownLinks_cons (hc _),
          hi text.length (by simp [← hl]) rfl]

theorem length_linkTarget_le : (linkTarget text).length ≤ text.length := by
  have ht : (trimmed text).length ≤ text.length :=
    ( rdropWhile_prefix _ _).length_le.trans (dropWhile_sublist _).length_le
  simp only [linkTarget]
  split
  case isTrue  => simp; omega
  case isFalse => exact ( takeWhile_prefix _).length_le.trans ht

theorem lintTarget_congr (h : ∀ file : Bytes, file.length ≤ target.length →
      targets.Agrees targets' root (slash entry.sourceDirectory file)) :
    lintTarget targets root entry lineNumber target = lintTarget targets' root entry lineNumber target := by
  have ⟨hp, he⟩ := h _ ( takeWhile_prefix fun b => b != byte '#' && b != byte '?').length_le
  simp only [lintTarget, hp, he]

-- The questions about a text are on paths that are shorter.
theorem lintMarkdownLinks_congr (h : ∀ file : Bytes, file.length < text.length →
      targets.Agrees targets' root (slash entry.sourceDirectory file)) :
    lintMarkdownLinks targets root entry lineNumber text =
      lintMarkdownLinks targets' root entry lineNumber text := by
  fun_induction lintMarkdownLinks targets root entry lineNumber text
  case case1 text hl =>
    rw [lintMarkdownLinks, hl]
  case case2 text before link hl ht =>
    rw [lintMarkdownLinks, hl]
    simp only []
    rw [ht]
  case case3 text before link hl target rest ht hi =>
    have hl' := congrArg length (eq_append_of_cut hl)
    have ht' := congrArg length (eq_append_of_cut ht)
    simp only [length_append] at hl' ht'
    have hf := @length_linkTarget_le target
    have hp : 0 < (ascii ")").length := by decide
    rw [lintMarkdownLinks_of_cut hl ht, hi fun file hf => h file (by omega),
      lintTarget_congr fun file hf => h file (by omega)]

theorem lintMarkdownLinks_skip (h : byte ']' ∉ text) :
    lintMarkdownLinks targets root entry lineNumber (text ++ rest) =
      lintMarkdownLinks targets root entry lineNumber rest := by
  induction text
  case nil => rfl
  case cons b text hi =>
    have ⟨hb, ht⟩ := not_or.mp <| mem_cons.not.mp h
    have hn : ¬ascii "](" <+: b :: (text ++ rest) := fun hp => hb (cons_prefix_cons.mp hp).left
    rw [cons_append, lintMarkdownLinks_cons hn, hi ht]

variable (targets root entry lineNumber) in
-- What the lint has to say about a file next to the content.
def fileDiagnostics (file : Bytes) : List Diagnostic :=
  let resolved := slash entry.sourceDirectory file
  if pathEscapesRoot targets resolved root then
    [linkDiagnostic entry "Markdown link escapes the knowledge root" lineNumber (quotedTarget file)]
  else if !targets.isPresent resolved then
    [linkDiagnostic entry "Markdown link target does not exist" lineNumber (quotedTarget file)]
  else
    []

variable {before label destination : Bytes}

theorem IsLink.linkTarget (h : IsLink before label destination) : linkTarget destination = destination := by
  have hs (b : UInt8) (hb : b ∈ destination) : isSpace b = false := (h.plain b hb).left
  have ht : trimmed destination = destination := by
    have hd : destination.dropWhile isSpace = destination :=
      dropWhile_eq_self_iff.mpr fun hl => by simp [hs _ (getElem_mem hl)]
    rw [trimmed, hd]
    exact rdropWhile_eq_self_iff.mpr fun hn => by simp [hs _ (getLast_mem hn)]
  have ha : isAngleWrapped destination = false := by
    have hm : destination.head? ≠ some (byte '<') := fun he =>
      (h.plain _ (mem_of_mem_head? he)).right (by decide)
    simp [isAngleWrapped, hm]
  have hb : ∀ b, isSpace b = false → (b != byte ' ' && b != byte '\t') = true := by decide +kernel
  have hw : destination.takeWhile (fun b => b != byte ' ' && b != byte '\t') = destination :=
    takeWhile_eq_self_iff.mpr fun b hm => hb b (hs b hm)
  simp [Howlinux.linkTarget, ht, ha, hw]

theorem IsLink.lintTarget (h : IsLink before label destination) (hf : isForeignTarget destination = false) :
    lintTarget targets root entry lineNumber destination =
      fileDiagnostics targets root entry lineNumber destination := by
  have hn : destination.isEmpty = false := isEmpty_eq_false_iff.mpr h.nonempty
  have hr : (destination.head? == some (byte '/')) = false := beq_eq_false_iff_ne.mpr h.relative
  have hb : ∀ b, b ∉ ascii "#?<>" → (b != byte '#' && b != byte '?') = true := by decide +kernel
  have hw : destination.takeWhile (fun b => b != byte '#' && b != byte '?') = destination :=
    takeWhile_eq_self_iff.mpr fun b hm => hb b (h.plain b hm).right
  simp [Howlinux.lintTarget, fileDiagnostics, hn, hf, hr, hw]

theorem lintMarkdownLinks_linkLine (h : IsLink before label destination) :
    lintMarkdownLinks targets root entry lineNumber (linkLine before label destination rest) =
      lintMarkdownLinks targets root entry lineNumber (ascii "](" ++ destination ++ [byte ')']) ++
        lintMarkdownLinks targets root entry lineNumber rest := by
  have hb : ∀ b, b ∉ ascii "[](`\\*_" → b ≠ byte ']' := by decide +kernel
  have hl : ∀ b, b ∉ ascii "[]" → b ≠ byte ']' := by decide +kernel
  have hs : byte ']' ∉ before ++ byte '[' :: label := by
    simp only [mem_append, mem_cons, not_or]
    exact ⟨fun hm => hb _ (h.before _ hm) rfl, by decide, fun hm => hl _ (h.label _ hm) rfl⟩
  have he : linkLine before label destination rest =
      before ++ byte '[' :: label ++ (ascii "](" ++ destination ++ byte ')' :: rest) := by
    simp [linkLine]
  rw [he, lintMarkdownLinks_skip hs, lintMarkdownLinks_append]

theorem Balanced.notMem_iff (h : Balanced text) : byte ')' ∉ text ↔ byte '(' ∉ text := by
  rw [← count_eq_zero, ← count_eq_zero, h.whole]

-- The lint asks for the file that a destination leads to.
def ChecksFile (root : Bytes) (entry : KnowledgeEntry) (lineNumber : ℕ) (line destination rest : Bytes) : Prop :=
  ∀ targets, lintMarkdownLinks targets root entry lineNumber line =
    fileDiagnostics targets root entry lineNumber destination ++
      lintMarkdownLinks targets root entry lineNumber rest

-- It does so for the destinations without parentheses, unless they lead away.
theorem checksFile_iff (h : IsLink before label destination) :
    ChecksFile root entry lineNumber (linkLine before label destination rest) destination rest ↔
      byte '(' ∉ destination ∧ isForeignTarget destination = false := by
  simp only [ChecksFile, lintMarkdownLinks_linkLine h, append_cancel_right_eq]
  constructor
  case mp =>
    intro hc
    let missing : LinkTargets := ⟨(· != slash entry.sourceDirectory destination), fun _ => none⟩
    have hm := hc missing
    have hn : fileDiagnostics missing root entry lineNumber destination ≠ [] := by
      simp [fileDiagnostics, pathEscapesRoot, missing]
    have ho : byte '(' ∉ destination := by
      intro ho
      -- The lint stops at the first closing parenthesis, so that the whole path is no question of it.
      have hp : byte ')' ∈ destination := by_contra fun hp => h.balanced.notMem_iff.mp hp ho
      let present : LinkTargets := ⟨fun _ => true, fun _ => none⟩
      have ha (file : Bytes) (hf : file.length < destination.length) :
          missing.Agrees present root (slash entry.sourceDirectory file) := by
        have hne : slash entry.sourceDirectory file ≠ slash entry.sourceDirectory destination :=
          fun he => hf.ne <| congrArg length (injective_slash _ he)
        simp [LinkTargets.Agrees, pathEscapesRoot, missing, present, hne]
      obtain ⟨target, tail, hd, ht⟩ := eq_append_cons_of_mem hp
      have he : ascii "](" ++ destination ++ [byte ')'] =
          ascii "](" ++ target ++ byte ')' :: (tail ++ [byte ')']) := by simp [hd]
      have hl : target.length + tail.length + 1 = destination.length := by simp [hd, add_assoc]
      have htl := @length_linkTarget_le target
      have hs := hc present
      rw [he, lintMarkdownLinks_link ht] at hm hs
      rw [lintTarget_congr fun file hf => ha file (by omega),
        lintMarkdownLinks_congr fun file hf => ha file (by simp at hf; omega), hs] at hm
      exact hn hm.symm
    refine ⟨ho, Bool.eq_false_iff.mpr fun hf => hn ?_⟩
    rw [← hm, lintMarkdownLinks_link (h.balanced.notMem_iff.mpr ho), lintMarkdownLinks_nil, append_nil, h.linkTarget]
    simp [Howlinux.lintTarget, hf, h.nonempty]
  case mpr =>
    rintro ⟨ho, hf⟩ targets
    rw [lintMarkdownLinks_link (h.balanced.notMem_iff.mpr ho), lintMarkdownLinks_nil, append_nil,
      h.linkTarget, h.lintTarget hf]

end

section

variable {text before label destination rest output : Bytes} {color : Bool} {pos next : ℕ} {b : UInt8}

theorem inlineFrom_of_lt (h : pos < text.length) : inlineFrom text color pos =
    (inlineSpan text color pos).1 ++ inlineFrom text color (inlineSpan text color pos).2 := by
  rw [inlineFrom, if_pos h]

theorem escapedSpan_eq_none (h : text[pos]? ≠ some (byte '\\')) : escapedSpan text pos = none := by
  unfold escapedSpan
  split
  case h_1 hd =>
    rw [← head?_drop, hd] at h
    exact if_neg fun hb => h (congrArg some hb.left)
  case h_2 => rfl

theorem codeSpan_eq_none (h : text[pos]? ≠ some (byte '`')) : codeSpan text color pos = none := by
  have ht : (text.drop pos).takeWhile (· == byte '`') = [] := by
    rw [← head?_drop] at h
    cases hd : text.drop pos
    case nil => rfl
    case cons b rest =>
      rw [hd] at h
      exact takeWhile_cons_of_neg (by simpa using h)
  rw [codeSpan, ht]

theorem inlineSpan_of_plain (h : text[pos]? = some b) (hb : b ∉ ascii "[](`\\*_") :
    inlineSpan text color pos = (literal [b], pos + 1) := by
  have hs {b' : UInt8} (hb' : b' ∈ ascii "[](`\\*_") : text[pos]? ≠ some b' := by
    rw [h]
    exact fun he => hb (Option.some.inj he ▸ hb')
  have hm : ∀ b, b ∉ ascii "[](`\\*_" → isEmphasisMarker b = false := by decide +kernel
  have hl : linkSpan text color pos = none := if_neg <| hs (by decide)
  have he : emphasisSpan text color pos = none := by simp [emphasisSpan, h, hm b hb]
  rw [inlineSpan, escapedSpan_eq_none (hs (by decide)), codeSpan_eq_none (hs (by decide)), hl, he, h]
  rfl

-- Plain bytes are written as they are.
theorem inlineFrom_plain (h : ∀ b ∈ before, b ∉ ascii "[](`\\*_") :
    inlineFrom (text ++ before ++ rest) color text.length =
      literal before ++ inlineFrom (text ++ before ++ rest) color (text ++ before).length := by
  induction before generalizing text
  case nil => simp [literal]
  case cons b before hi =>
    have hp : (text ++ b :: before ++ rest)[text.length]? = some b := by simp
    have hc : text ++ b :: before ++ rest = text ++ [b] ++ before ++ rest := by simp
    rw [inlineFrom_of_lt (by simp), inlineSpan_of_plain hp (h b mem_cons_self), hc]
    have hr : inlineFrom (text ++ [b] ++ before ++ rest) color (text ++ [b]).length =
        literal before ++ inlineFrom (text ++ [b] ++ before ++ rest) color (text ++ [b] ++ before).length :=
      hi fun b hb => h b <| mem_cons_of_mem _ hb
    rw [length_append, length_singleton] at hr
    have hl : literal (b :: before) = literal [b] ++ literal before := by simp [literal]
    rw [hr, ← append_assoc, ← hl, append_cons text b before]

theorem IsLink.linkSpan (h : IsLink before label destination) :
    linkSpan (linkLine before label destination rest) color before.length =
      some (linkOutput label destination color,
        (linkLine before label destination rest).length - rest.length) := by
  have hl : ∀ b, b ∉ ascii "[]" → b ≠ byte ']' := by decide +kernel
  have hs : byte ']' ∉ (before ++ byte '[' :: label).drop (before.length + 1) := by
    simpa using fun hm => hl _ (h.label _ hm) rfl
  have he : linkLine before label destination rest =
      before ++ byte '[' :: label ++ [byte ']', byte '('] ++ (destination ++ byte ')' :: rest) := by
    simp [linkLine, ascii]
  have hb : (linkLine before label destination rest)[before.length]? = some (byte '[') := by simp [linkLine]
  have hd : (linkLine before label destination rest).drop ((before ++ byte '[' :: label).length + 2) =
      destination ++ byte ')' :: rest := by
    rw [he]
    exact drop_left' (by simp; omega)
  have ht : (linkLine before label destination rest).take (before ++ byte '[' :: label).length =
      before ++ byte '[' :: label := by
    rw [he, append_assoc]
    exact take_left' rfl
  have hc : closingParenthesis 1 (destination ++ byte ')' :: rest) = some destination.length :=
    h.balanced.closingParenthesis
  have hf : find (linkLine before label destination rest) (ascii "](") (before.length + 1) =
      some (before ++ byte '[' :: label).length := by
    rw [he]
    exact find_append_of_notMem (by simp) hs
  have hll : (before ++ byte '[' :: label).drop (before.length + 1) = label := by
    rw [append_cons]
    exact drop_left' (by simp)
  have hn : (before ++ byte '[' :: label).length + 2 + destination.length + 1 =
      (linkLine before label destination rest).length - rest.length := by
    rw [he]
    simp only [length_append, length_cons, length_nil]
    omega
  rw [Howlinux.linkSpan, if_pos hb, hf, Option.bind_eq_bind, Option.bind_some, hd, hc, Option.bind_some, ht,
    hll, take_left, hn]
  rfl

theorem IsLink.inlineText (h : IsLink before label destination) :
    let line := linkLine before label destination rest
    inlineText line color = literal before ++ linkOutput label destination color ++
      inlineFrom line color (line.length - rest.length) := by
  intro line
  have hline : line = [] ++ before ++ (byte '[' :: label ++ ascii "](" ++ destination ++ byte ')' :: rest) := by
    simp [line, linkLine]
  have hb : (line)[before.length]? = some (byte '[') := by simp [line, linkLine]
  have hs : inlineSpan line color before.length =
      (linkOutput label destination color, line.length - rest.length) := by
    have hne (b : UInt8) (hb' : b ≠ byte '[') : (line)[before.length]? ≠ some b := by
      rw [hb]
      exact fun he => hb' (Option.some.inj he).symm
    rw [inlineSpan, escapedSpan_eq_none (hne _ (by decide)), codeSpan_eq_none (hne _ (by decide)), h.linkSpan]
    rfl
  have hp : inlineFrom line color 0 = literal before ++ inlineFrom line color before.length := by
    rw [hline]
    exact inlineFrom_plain h.before
  rw [Howlinux.inlineText, hp, inlineFrom_of_lt (by simp [line, linkLine]), hs, append_assoc]

end

-- The renderer shows the destination as it is written, up to the parenthesis that closes the link. The lint
-- looks for it up to the first one.
theorem link_destination_iff (root : Bytes) (entry : KnowledgeEntry) (lineNumber : ℕ)
    (before label destination rest : Bytes) (h : IsLink before label destination) :
    let line := linkLine before label destination rest
    (∀ color,
      linkSpan line color before.length = some (linkOutput label destination color, line.length - rest.length) ∧
      inlineText line color = literal before ++ linkOutput label destination color ++
        inlineFrom line color (line.length - rest.length)) ∧
    (ChecksFile root entry lineNumber line destination rest ↔
      byte '(' ∉ destination ∧ isForeignTarget destination = false) :=
  ⟨fun _ => ⟨h.linkSpan, h.inlineText⟩, checksFile_iff h⟩

-- A copy of a file next to the content.
theorem isLink_copy : IsLink [] (ascii "notes") (ascii "notes(1).md") where
  before   := by simp
  label    := by decide +kernel
  nonempty := by decide
  relative := by decide
  plain    := by decide +kernel
  balanced := ⟨by decide +kernel, by decide +kernel⟩

theorem link_destination_copy :
    let line := linkLine [] (ascii "notes") (ascii "notes(1).md") []
    ChecksFile (ascii "knowledge") inlineCode 1 line (ascii "notes(1).md") [] ↔
      byte '(' ∉ ascii "notes(1).md" ∧ isForeignTarget (ascii "notes(1).md") = false :=
  (link_destination_iff _ _ _ _ _ _ _ isLink_copy).right

-- It is there, and reported as missing.
theorem copy_reported :
    let line    := linkLine [] (ascii "notes") (ascii "notes(1).md") []
    let targets : LinkTargets :=
      ⟨(· == ascii "knowledge/files/list-files/notes(1).md"), some⟩
    IsLink [] (ascii "notes") (ascii "notes(1).md") ∧
    fileDiagnostics targets (ascii "knowledge") inlineCode 1 (ascii "notes(1).md") = [] ∧
    lintMarkdownLinks targets (ascii "knowledge") inlineCode 1 line =
      fileDiagnostics targets (ascii "knowledge") inlineCode 1 (ascii "notes(1") ∧
    ¬ChecksFile (ascii "knowledge") inlineCode 1 line (ascii "notes(1).md") [] := by
  intro line targets
  have hl : lintMarkdownLinks targets (ascii "knowledge") inlineCode 1 line =
      fileDiagnostics targets (ascii "knowledge") inlineCode 1 (ascii "notes(1") := by decide +kernel
  have hf : fileDiagnostics targets (ascii "knowledge") inlineCode 1 (ascii "notes(1).md") = [] := by decide +kernel
  refine ⟨isLink_copy, hf, hl, fun h => ?_⟩
  have := h targets
  rw [hl, hf, lintMarkdownLinks_nil] at this
  revert this
  decide +kernel

end Howlinux
