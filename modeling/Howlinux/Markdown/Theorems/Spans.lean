import Howlinux.Markdown.Theorems.CodeSpans
import Howlinux.Markdown.Theorems.Links

open Bytes List

namespace Howlinux

-- What a stretch of inline text stands for.
inductive Span
  | plain (text : Bytes)
  | escaped (ch : UInt8)
  | code (count : ℕ) (text : Bytes)
  | link (label url : Bytes)
  | emphasis (marker : UInt8) (count : ℕ) (text : Bytes) (isMarker : isEmphasisMarker marker)
  deriving DecidableEq, Repr

namespace Span

def source : Span → Bytes
  | plain text                   => text
  | escaped ch                   => [byte '\\', ch]
  | code count text              => replicate count (byte '`') ++ text ++ replicate count (byte '`')
  | link label url               => byte '[' :: label ++ ascii "](" ++ url ++ ascii ")"
  | emphasis marker count text _ => replicate count marker ++ text ++ replicate count marker

def render (color : Bool) : Span → Bytes
  | plain text              => literal text
  | escaped ch              => literal [ch]
  | code _ text             => styled (text.map fun ch => if ch == byte '\n' then byte ' ' else ch) "36" color
  | link label url          =>
    styled label "4" color ++ if url = label then [] else ascii " (" ++ literal url ++ ascii ")"
  | emphasis _ count text _ => styled text (if count = 2 then "1" else "3") color

end Span

-- The bytes that a backslash takes their meaning from.
def escapable : Bytes :=
  ascii "\\`*_\x7b\x7d[]()#+-.!>"

-- Backticks from a position on, and no other one behind them.
structure BackticksAt (text : Bytes) (pos count : ℕ) : Prop where
  count_pos : 0 < count
  backticks : replicate count (byte '`') <+: text.drop pos
  after     : text[pos + count]? ≠ some (byte '`')

-- The label of a link ends at the first bracket with a parenthesis behind it, and its destination at the
-- parenthesis that closes that one.
structure LinkAt (text : Bytes) (pos : ℕ) (label url : Bytes) : Prop where
  source   : (Span.link label url).source <+: text.drop pos
  first    : ∀ other, pos < other → other ≤ pos + label.length → ¬ascii "](" <+: text.drop other
  balanced : Balanced url

-- Text between markers that touch it, up to the first ones that follow. No letters or digits are around it.
structure EmphasisAt (text : Bytes) (pos : ℕ) (marker : UInt8) (count : ℕ) (inner : Bytes) : Prop where
  isMarker : isEmphasisMarker marker
  count_eq : count = if text[pos + 1]? = some marker then 2 else 1
  source   : (Span.emphasis marker count inner isMarker).source <+: text.drop pos
  first    : ∀ other, pos + count ≤ other → other < pos + count + inner.length →
    ¬replicate count marker <+: text.drop other
  before   : pos = 0 ∨ text[pos - 1]?.any isAlphanumeric = false
  after    : text[pos + count + inner.length + count]?.any isAlphanumeric = false
  head     : inner.head?.any (!whitespace ·)
  last     : inner.getLast?.any (!whitespace ·)

-- What stands at a position of inline text.
inductive SpanAt (text : Bytes) (pos : ℕ) : Span → Prop
  | escaped {ch : UInt8} : [byte '\\', ch] <+: text.drop pos → ch ∈ escapable → SpanAt text pos (.escaped ch)
  | code {count stop : ℕ} : BackticksAt text pos count → IsFirstRun text (pos + count) count (some stop) →
    SpanAt text pos (.code count ((text.take stop).drop (pos + count)))
  | backticks {count : ℕ} : BackticksAt text pos count → IsFirstRun text (pos + count) count none →
    SpanAt text pos (.plain (replicate count (byte '`')))
  | link {label url : Bytes} : LinkAt text pos label url → SpanAt text pos (.link label url)
  | emphasis {marker : UInt8} {count : ℕ} {inner : Bytes} : (h : EmphasisAt text pos marker count inner) →
    SpanAt text pos (.emphasis marker count inner h.isMarker)
  | plain {b : UInt8} : text[pos]? = some b → b ≠ byte '`' → (∀ ch ∈ escapable, ¬[byte '\\', ch] <+: text.drop pos) →
    (∀ label url, ¬LinkAt text pos label url) → (∀ marker count inner, ¬EmphasisAt text pos marker count inner) →
    SpanAt text pos (.plain [b])

-- The spans of inline text from a position on.
inductive SpansFrom (text : Bytes) : ℕ → List Span → Prop
  | nil {pos : ℕ} : text.length ≤ pos → SpansFrom text pos []
  | cons {pos : ℕ} {span : Span} {spans : List Span} :
    SpanAt text pos span → SpansFrom text (pos + span.source.length) spans →
    SpansFrom text pos (span :: spans)

section

variable {text pattern label url inner : Bytes} {color : Bool} {pos start stop count : ℕ} {marker b : UInt8}

theorem drop_eq_append_drop (h : start ≤ stop) : text.drop start = (text.take stop).drop start ++ text.drop stop := by
  obtain ⟨n, rfl⟩ := Nat.exists_eq_add_of_le h
  rw [drop_take, Nat.add_sub_cancel_left, drop_take_append_drop]

theorem drop_of_prefix (h : pattern <+: text.drop pos) :
    text.drop pos = pattern ++ text.drop (pos + pattern.length) := by
  rw [← drop_drop]
  exact (prefix_iff_eq_append.mp h).symm

theorem find_of_first (hp : pattern ≠ []) (hs : start ≤ stop) (h : pattern <+: text.drop stop)
    (hf : ∀ other, start ≤ other → other < stop → ¬pattern <+: text.drop other) :
    find text pattern start = some stop := by
  have hl := h.length_le
  have hn := length_pos_iff.mpr hp
  rw [length_drop] at hl
  rw [find, List.find?_range_eq_some]
  refine ⟨by simpa [hs] using h, by simp; omega, fun other ho => ?_⟩
  by_cases hso : start ≤ other
  case pos => simpa [hso, Bool.eq_false_iff] using hf other hso ho
  case neg => simp [hso]

theorem closingParenthesis_splits {depth offset : ℕ} (h : closingParenthesis depth text = some offset) :
    text = text.take offset ++ byte ')' :: text.drop (offset + 1) := by
  induction text generalizing depth offset
  case nil => contradiction
  case cons b text hi =>
    simp only [closingParenthesis] at h
    have hm {depth : ℕ} (h : (closingParenthesis depth text).map (· + 1) = some offset) :
        b :: text = (b :: text).take offset ++ byte ')' :: (b :: text).drop (offset + 1) := by
      obtain ⟨offset', ho, he⟩ := Option.map_eq_some_iff.mp h
      rw [← he, take_succ_cons, drop_succ_cons, cons_append, ← hi ho]
    split at h
    case isTrue => exact hm h
    case isFalse =>
      split at h
      case isFalse => exact hm h
      case isTrue hc =>
        split at h
        case isFalse => exact hm h
        case isTrue => cases h; simp [hc]

-- The parenthesis that is found closes the last one of `depth`, and all the others before it are pairs.
theorem count_of_closingParenthesis {depth offset : ℕ} (hd : 0 < depth)
    (h : closingParenthesis depth text = some offset) :
    (∀ start, start <+: text.take offset → start.count (byte ')') < depth + start.count (byte '(')) ∧
      depth + (text.take offset).count (byte '(') = (text.take offset).count (byte ')') + 1 := by
  have hne : byte ')' ≠ byte '(' := by decide
  induction text generalizing depth offset
  case nil => contradiction
  case cons b text hi =>
    have hm {depth' : ℕ} (hd' : 0 < depth') (hb : depth + [b].count (byte '(') = depth' + [b].count (byte ')'))
        (h : (closingParenthesis depth' text).map (· + 1) = some offset) :
        (∀ start, start <+: (b :: text).take offset → start.count (byte ')') < depth + start.count (byte '(')) ∧
          depth + ((b :: text).take offset).count (byte '(') = ((b :: text).take offset).count (byte ')') + 1 := by
      obtain ⟨offset', ho, rfl⟩ := Option.map_eq_some_iff.mp h
      obtain ⟨hs, hw⟩ := hi hd' ho
      rw [take_succ_cons, count_cons, count_cons]
      rw [count_singleton, count_singleton] at hb
      refine ⟨fun start hp => ?_, by omega⟩
      rcases start with _ | ⟨b', start⟩
      case nil  => simpa using hd
      case cons =>
        obtain ⟨rfl, hs'⟩ := cons_prefix_cons.mp hp
        have := hs start hs'
        rw [count_cons, count_cons]
        omega
    rw [closingParenthesis] at h
    split at h
    case isTrue ho => exact hm (Nat.succ_pos _) (by simp [ho, hne.symm]) h
    case isFalse ho =>
      split at h
      case isFalse hc => exact hm hd (by simp [ho, hc]) h
      case isTrue hc =>
        split at h
        case isFalse h1 => exact hm (by omega) (by simp [hc, hne]; omega) h
        case isTrue h1 =>
          cases h
          simp [h1]

theorem linkAt_of_linkSpan {found : Bytes × ℕ} (h : linkSpan text color pos = some found) :
    ∃ label url, LinkAt text pos label url := by
  unfold linkSpan at h
  split at h
  case isFalse => contradiction
  case isTrue hb =>
    obtain ⟨labelEnd, hf, h⟩ := Option.bind_eq_some_iff.mp h
    obtain ⟨offset, hc, _⟩ := Option.bind_eq_some_iff.mp h
    obtain ⟨hl, hp⟩ := find_eq_some hf
    obtain ⟨hlt, he⟩ := List.getElem?_eq_some_iff.mp hb
    obtain ⟨hs, hw⟩ := count_of_closingParenthesis one_pos hc
    have hd : text.drop labelEnd = ascii "](" ++ text.drop (labelEnd + 2) := drop_of_prefix hp
    have hu := closingParenthesis_splits hc
    have hll : labelEnd ≤ text.length := by
      have := hp.length_le
      rw [length_drop, show (ascii "](").length = 2 from rfl] at this
      omega
    refine ⟨(text.take labelEnd).drop (pos + 1), (text.drop (labelEnd + 2)).take offset, ?_, ?_, ?_⟩
    case refine_1 =>
      refine ⟨(text.drop (labelEnd + 2)).drop (offset + 1), ?_⟩
      conv_rhs => rw [drop_eq_getElem_cons hlt, he, drop_eq_append_drop hl, hd, hu]
      simp [Span.source, ascii]
    case refine_2 =>
      intro other ho hlo
      rw [length_drop, length_take, min_eq_left hll] at hlo
      exact not_prefix_of_find hf ho (by omega)
    case refine_3 =>
      refine ⟨fun start hm => ?_, by omega⟩
      have := hs start ((mem_inits _ _).mp hm)
      omega

theorem LinkAt.linkSpan (h : LinkAt text pos label url) : linkSpan text color pos =
    some ((Span.link label url).render color, pos + (Span.link label url).source.length) := by
  obtain ⟨rest, hr⟩ := h.source
  have hs : text.drop pos = byte '[' :: (label ++ (ascii "](" ++ (url ++ byte ')' :: rest))) := by
    rw [← hr]
    simp [Span.source, ascii]
  have hb : text[pos]? = some (byte '[') := by
    rw [← head?_drop, hs]
    rfl
  have hl : text.drop (pos + 1) = label ++ (ascii "](" ++ (url ++ byte ')' :: rest)) := by
    rw [← drop_drop, hs]
    rfl
  have hp : text.drop (pos + 1 + label.length) = ascii "](" ++ (url ++ byte ')' :: rest) := by
    rw [← drop_drop, hl, drop_left]
  have hu : text.drop (pos + 1 + label.length + 2) = url ++ byte ')' :: rest := by
    rw [← drop_drop, hp]
    rfl
  have hf : find text (ascii "](") (pos + 1) = some (pos + 1 + label.length) :=
    find_of_first (by decide) (by omega) (hp ▸ prefix_append _ _) fun other ho hlo =>
      h.first other (by omega) (by omega)
  have ht : (text.take (pos + 1 + label.length)).drop (pos + 1) = label := by
    rw [drop_take, hl]
    simp
  rw [Howlinux.linkSpan, if_pos hb, hf, Option.bind_eq_bind, Option.bind_some, hu, h.balanced.closingParenthesis,
    Option.bind_some, ht, take_left]
  simp [Span.render, Span.source, ascii]
  omega

theorem take_emphasisCount {marker : UInt8} (h : text[pos]? = some marker) :
    (text.drop pos).take (emphasisCount text pos marker) = replicate (emphasisCount text pos marker) marker := by
  have ⟨hlt, he⟩ := List.getElem?_eq_some_iff.mp h
  unfold emphasisCount
  split
  case isFalse =>
    rw [drop_eq_getElem_cons hlt, he]
    rfl
  case isTrue h' =>
    have ⟨hlt', he'⟩ := List.getElem?_eq_some_iff.mp h'
    rw [drop_eq_getElem_cons hlt, drop_eq_getElem_cons hlt', he, he']
    rfl

theorem emphasisAt_of_emphasisSpan {found : Bytes × ℕ} (h : emphasisSpan text color pos = some found) :
    ∃ marker count inner, EmphasisAt text pos marker count inner := by
  obtain ⟨marker, hm, h⟩ := Option.bind_eq_some_iff.mp h
  generalize hc : emphasisCount text pos marker = count at h
  dsimp only at h
  split at h
  case isFalse => contradiction
  case isTrue hb =>
    obtain ⟨hmk, hbd, hst⟩ := hb
    obtain ⟨stop, hf, h⟩ := Option.bind_eq_some_iff.mp h
    split at h
    case isFalse => contradiction
    case isTrue hs =>
      obtain ⟨hlt, hla, haf⟩ := hs
      have hr : (text.drop pos).take count = replicate count marker := hc ▸ take_emphasisCount hm
      obtain ⟨hl, hp⟩ := find_eq_some hf
      have hd := drop_of_prefix ( take_prefix count (text.drop pos))
      have hd' := drop_of_prefix hp
      rw [hr, length_replicate] at hd hd'
      have hcp : 0 < count := by
        rw [← hc, emphasisCount]
        split <;> decide
      have hll : stop < text.length := by
        have := hp.length_le
        rw [hr, length_replicate, length_drop] at this
        omega
      have hil : pos + count + ((text.take stop).drop (pos + count)).length = stop := by
        rw [length_drop, length_take, min_eq_left hll.le]
        omega
      refine ⟨marker, count, (text.take stop).drop (pos + count), hmk, hc.symm, ?_, ?_, ?_, ?_, ?_, ?_⟩
      case refine_1 =>
        refine ⟨text.drop (stop + count), ?_⟩
        conv_rhs => rw [hd, drop_eq_append_drop hl, hd']
        simp [Span.source]
      case refine_2 =>
        intro other ho hlo
        exact hr ▸ not_prefix_of_find hf ho (hil ▸ hlo)
      case refine_3 => simpa using hbd
      case refine_4 =>
        rw [hil]
        simpa using haf
      case refine_5 =>
        rw [head?_drop, getElem?_take_of_lt hlt]
        exact hst
      case refine_6 =>
        rw [getLast?_drop, length_take, min_eq_left hll.le, if_neg (by omega), getLast?_take, if_neg (by omega),
          getElem?_eq_getElem (by omega)]
        rwa [getElem?_eq_getElem (by omega)] at hla

theorem EmphasisAt.emphasisSpan (h : EmphasisAt text pos marker count inner) : emphasisSpan text color pos =
    some ((Span.emphasis marker count inner h.isMarker).render color,
      pos + (Span.emphasis marker count inner h.isMarker).source.length) := by
  obtain ⟨rest, hr⟩ := h.source
  have hc : 0 < count := by
    rw [h.count_eq]
    split <;> decide
  have hs : text.drop pos = replicate count marker ++ (inner ++ (replicate count marker ++ rest)) := by
    rw [← hr]
    simp [Span.source]
  have hm : text[pos]? = some marker := by
    obtain ⟨n, rfl⟩ := Nat.exists_eq_add_one_of_ne_zero hc.ne'
    rw [← head?_drop, hs, replicate_succ]
    rfl
  have he : emphasisCount text pos marker = count := h.count_eq.symm
  have hi : text.drop (pos + count) = inner ++ (replicate count marker ++ rest) := by
    rw [← drop_drop, hs]
    exact drop_left' length_replicate
  have hp : text.drop (pos + count + inner.length) = replicate count marker ++ rest := by
    rw [← drop_drop, hi, drop_left]
  have ht : (text.drop pos).take count = replicate count marker := by
    rw [hs]
    exact take_left' length_replicate
  have hf : find text (replicate count marker) (pos + count) = some (pos + count + inner.length) :=
    find_of_first (by simp [hc.ne']) (by omega) (hp ▸ prefix_append _ _) h.first
  have hne : inner ≠ [] := fun hn => by
    have := h.head
    simp [hn] at this
  have hn := length_pos_iff.mpr hne
  have hfirst : text[pos + count]?.any (!whitespace ·) = true := by
    rw [← head?_drop, hi, head?_append_of_ne_nil _ hne]
    exact h.head
  have hlast : text[pos + count + inner.length - 1]?.any (!whitespace ·) = true := by
    have hx : text[pos + count + inner.length - 1]? = inner.getLast? := by
      rw [add_assoc, Nat.add_sub_assoc (by omega), Nat.add_sub_assoc hn, ← add_assoc, ← getElem?_drop, hi,
        getElem?_append_left (by omega), getLast?_eq_getElem?]
    rw [hx]
    exact h.last
  have hbefore : (pos == 0 || !(text[pos - 1]?.any isAlphanumeric)) = true := by simpa using h.before
  have hafter : (!(text[pos + count + inner.length + count]?.any isAlphanumeric)) = true := by simpa using h.after
  have htx : (text.take (pos + count + inner.length)).drop (pos + count) = inner := by
    rw [drop_take, hi]
    simp
  simp only [Howlinux.emphasisSpan, hm, Option.bind_eq_bind, Option.bind_some, he, h.isMarker, hbefore, hfirst, ht, hf,
    hlast, hafter, and_self, if_true, htx, lt_add_iff_pos_right, hn]
  simp [Span.render, Span.source]
  omega

theorem escapedSpan_of_prefix {ch : UInt8} (h : [byte '\\', ch] <+: text.drop pos) (hc : ch ∈ escapable) :
    escapedSpan text pos = some (literal [ch], pos + 2) := by
  obtain ⟨rest, hr⟩ := h
  rw [escapedSpan, ← hr]
  exact if_pos ⟨rfl, hc⟩

theorem escapedSpan_of_not_prefix (h : ∀ ch ∈ escapable, ¬[byte '\\', ch] <+: text.drop pos) :
    escapedSpan text pos = none := by
  unfold escapedSpan
  split
  case h_2 => rfl
  case h_1 b ch rest hd =>
    refine if_neg fun ⟨hb, hc⟩ => h ch hc ?_
    rw [hd, hb]
    exact ⟨rest, rfl⟩

-- A run of backticks is code up to the next run that is as long, or else it stands for itself.
theorem exists_codeSpan (hb : text[pos]? = some (byte '`')) : ∃ span, SpanAt text pos span ∧
    ∀ color, codeSpan text color pos = some (span.render color, pos + span.source.length) := by
  have hd : text.drop pos = byte '`' :: text.drop (pos + 1) := by
    obtain ⟨hl, he⟩ := List.getElem?_eq_some_iff.mp hb
    rw [drop_eq_getElem_cons hl, he]
  cases ht : (text.drop pos).takeWhile (· == byte '`')
  case nil =>
    rw [hd, takeWhile_cons_of_pos (by decide)] at ht
    contradiction
  case cons b backticks =>
    have hr : (text.drop pos).takeWhile (· == byte '`') = replicate (backticks.length + 1) (byte '`') :=
      eq_replicate_iff.mpr ⟨by rw [ht]; rfl, fun _ hm => eq_of_beq <| mem_takeWhile_imp (p := (· == byte '`')) hm⟩
    have hbt : byte '`' :: backticks = replicate (backticks.length + 1) (byte '`') := by
      have he := ht.symm.trans hr
      rw [replicate_succ] at he ⊢
      rw [← (cons.inj he).right]
    have ha : BackticksAt text pos (backticks.length + 1) := by
      refine ⟨Nat.succ_pos _, hr ▸ takeWhile_prefix _, ?_⟩
      have hs := takeWhile_append_dropWhile (p := (· == byte '`')) (l := text.drop pos)
      have hn := head?_dropWhile_not (· == byte '`') (text.drop pos)
      have hx : text[pos + (backticks.length + 1)]? = ((text.drop pos).dropWhile (· == byte '`')).head? := by
        rw [← drop_length_takeWhile, ht, head?_drop, getElem?_drop, length_cons]
      rw [hx]
      intro hh
      rw [hh] at hn
      simp at hn
    have hf : IsFirstRun text (pos + (backticks.length + 1)) (backticks.length + 1)
        (closingBackticks text backticks.length (pos + (backticks.length + 1))) := isFirstRun_closingBackticks
    cases hc : closingBackticks text backticks.length (pos + (backticks.length + 1))
    case none =>
      rw [hc] at hf
      refine ⟨_, .backticks ha hf, fun color => ?_⟩
      simp only [codeSpan, ht, hc, hbt]
      simp [Span.render, Span.source]
    case some stop =>
      rw [hc] at hf
      refine ⟨_, .code ha hf, fun color => ?_⟩
      have hl := hf.left
      have hs := hf.right.left.backticks.length_le
      rw [length_replicate, length_drop] at hs
      have hln : ((text.take stop).drop (pos + (backticks.length + 1))).length =
          stop - (pos + (backticks.length + 1)) := by
        rw [length_drop, length_take, min_eq_left (by omega)]
      simp only [codeSpan, ht, hc, Span.render, Span.source, length_append, length_replicate, hln, Option.some.injEq,
        Prod.mk.injEq, true_and]
      omega

theorem exists_span (h : pos < text.length) : ∃ span, SpanAt text pos span ∧
    ∀ color, inlineSpan text color pos = (span.render color, pos + span.source.length) := by
  have hp : text[pos]? = some text[pos] := getElem?_eq_getElem h
  by_cases he : ∃ ch ∈ escapable, [byte '\\', ch] <+: text.drop pos
  case pos =>
    obtain ⟨ch, hc, he⟩ := he
    exact ⟨_, .escaped he hc, fun color => by rw [inlineSpan, escapedSpan_of_prefix he hc]; rfl⟩
  case neg =>
    simp only [not_exists, not_and] at he
    have hes := escapedSpan_of_not_prefix he
    by_cases hb : text[pos] = byte '`'
    case pos =>
      obtain ⟨span, hs, hc⟩ := exists_codeSpan (hb ▸ hp)
      exact ⟨span, hs, fun color => by rw [inlineSpan, hes, hc]; rfl⟩
    case neg =>
      have hcs (color : Bool) : codeSpan text color pos = none := codeSpan_eq_none (by rw [hp]; simpa using hb)
      by_cases hl : ∃ label url, LinkAt text pos label url
      case pos =>
        obtain ⟨label, url, hl⟩ := hl
        exact ⟨_, .link hl, fun color => by rw [inlineSpan, hes, hcs, hl.linkSpan]; rfl⟩
      case neg =>
        have hls (color : Bool) : linkSpan text color pos = none :=
          Option.eq_none_iff_forall_not_mem.mpr fun _ hm => hl <| linkAt_of_linkSpan hm
        by_cases hm : ∃ marker count inner, EmphasisAt text pos marker count inner
        case pos =>
          obtain ⟨marker, count, inner, hm⟩ := hm
          exact ⟨_, .emphasis hm, fun color => by rw [inlineSpan, hes, hcs, hls, hm.emphasisSpan]; rfl⟩
        case neg =>
          have hms (color : Bool) : emphasisSpan text color pos = none :=
            Option.eq_none_iff_forall_not_mem.mpr fun _ hm' => hm <| emphasisAt_of_emphasisSpan hm'
          simp only [not_exists] at hl hm
          exact ⟨_, .plain hp hb he hl hm, fun color => by rw [inlineSpan, hes, hcs, hls, hms, hp]; rfl⟩

theorem SpanAt.source_prefix {span : Span} (h : SpanAt text pos span) : span.source <+: text.drop pos := by
  cases h
  case escaped he _    => exact he
  case backticks hb _  => exact hb.backticks
  case link hl         => exact hl.source
  case emphasis he     => exact he.source
  case plain hp _ _ _ _ =>
    obtain ⟨hl, he⟩ := List.getElem?_eq_some_iff.mp hp
    rw [drop_eq_getElem_cons hl, he]
    exact prefix_append [_] _
  case code count stop hb hf =>
    have hd := drop_of_prefix hb.backticks
    have hs := drop_of_prefix hf.right.left.backticks
    rw [length_replicate] at hd hs
    refine ⟨text.drop (stop + count), ?_⟩
    conv_rhs => rw [hd, drop_eq_append_drop hf.left, hs]
    simp [Span.source]

end

-- Inline text is a sequence of spans, each of them printed on its own.
theorem exists_spans (text : Bytes) : ∃ spans, SpansFrom text 0 spans ∧ spans.flatMap Span.source = text ∧
    ∀ color, inlineText text color = spans.flatMap (Span.render color) := by
  have go (pos : ℕ) : ∃ spans, SpansFrom text pos spans ∧ spans.flatMap Span.source = text.drop pos ∧
      ∀ color, inlineFrom text color pos = spans.flatMap (Span.render color) := by
    induction hn : text.length - pos using Nat.strong_induction_on generalizing pos
    case h n hi =>
      by_cases hl : pos < text.length
      case neg =>
        refine ⟨[], .nil (not_lt.mp hl), (drop_eq_nil_of_le (not_lt.mp hl)).symm, fun color => ?_⟩
        rw [inlineFrom, if_neg hl]
        rfl
      case pos =>
        obtain ⟨span, hs, hr⟩ := exists_span hl
        have hlt : pos < pos + span.source.length := by
          have := @lt_inlineSpan text false pos
          rwa [hr] at this
        obtain ⟨spans, hfs, hss, hrs⟩ := hi (text.length - (pos + span.source.length)) (by omega) _ rfl
        refine ⟨span :: spans, .cons hs hfs, ?_, fun color => ?_⟩
        case refine_1 => rw [flatMap_cons, hss, ← drop_of_prefix hs.source_prefix]
        case refine_2 => rw [inlineFrom, if_pos hl, hr, hrs, flatMap_cons]
  exact go 0

end Howlinux
