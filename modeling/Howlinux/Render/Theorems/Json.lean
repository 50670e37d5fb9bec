import Howlinux.Render.Document
import Howlinux.Render.Theorems.Escape

open Bytes
open Json (named)

namespace Howlinux

-- A printable text of a value.
structure Writes (value : Json) (text : Bytes) : Prop where
  isText : Json.Text value text
  spells : Utf8.Spells IsPrintable text

-- A printable text of an object, up to some member.
structure Opens (members : List (List Char × Json)) (text : Bytes) : Prop where
  opened : Json.Opened members text
  spells : Utf8.Spells IsPrintable text

-- A printable text of a value, with a newline after it.
def WritesLine (value : Json) (output : Bytes) : Prop :=
  ∃ text, output = text ++ [byte '\n'] ∧ Writes value text

section

variable {value : Json} {text valueText : Bytes} {members : List (List Char × Json)} {name key : String}

theorem spells_ascii (h : name.toList.all Json.isPlain) : Utf8.Spells IsPrintable (ascii name) := by
  refine spells_of_visible ?_
  rw [ascii, List.all_map]
  refine List.all_eq_true.mpr fun c hc => ?_
  have hp := List.all_eq_true.mp h c hc
  simp only [Json.isPlain, Bool.and_eq_true, decide_eq_true_eq] at hp
  have hv : (byte c).toNat = c.val.toNat := UInt8.toNat_ofNat_of_lt' (hp.left.left.right.trans (by decide))
  simpa [isVisible, UInt8.le_iff_toNat_le, UInt8.lt_iff_toNat_lt, hv] using hp.left.left

theorem spells_member (hn : name.toList.all Json.isPlain) (h : Writes value text) :
    Utf8.Spells IsPrintable (Json.quote (ascii name) ++ byte ':' :: text) := by
  have hc : Utf8.Spells IsPrintable [byte ':'] := spells_of_visible (by decide)
  exact (spells_quote <| spells_ascii hn).append (hc.append h.spells)

theorem member_named (hn : name.toList.all Json.isPlain) (h : Writes value text) :
    Json.Member (named name value) (Json.quote (ascii name) ++ byte ':' :: text) :=
  .intro (Json.unescape_plain hn) h.isText

-- `key` is the name with its quotation marks and its colon.
theorem Opens.first (name : String) (hn : name.toList.all Json.isPlain)
    (hk : ascii key = Json.quote (ascii name) ++ [byte ':']) (h : Writes value text) :
    Opens [named name value] (ascii "\x7b" ++ ascii key ++ text) := by
  have hb : Utf8.Spells IsPrintable [byte '\x7b'] := spells_of_visible (by decide)
  have he : ascii "\x7b" ++ ascii key ++ text =
      byte '\x7b' :: (Json.quote (ascii name) ++ byte ':' :: text) := by
    rw [hk, List.append_assoc, List.append_assoc]
    rfl
  exact he ▸ ⟨.first <| member_named hn h, hb.append <| spells_member hn h⟩

-- Later names have a comma in front of them.
theorem Opens.next (h : Opens members text) (name : String) (hn : name.toList.all Json.isPlain)
    (hk : ascii key = byte ',' :: Json.quote (ascii name) ++ [byte ':']) (hv : Writes value valueText) :
    Opens (members ++ [named name value]) (text ++ ascii key ++ valueText) := by
  have hc : Utf8.Spells IsPrintable [byte ','] := spells_of_visible (by decide)
  have he : text ++ ascii key ++ valueText =
      text ++ byte ',' :: (Json.quote (ascii name) ++ byte ':' :: valueText) := by
    rw [hk, List.append_assoc, List.append_assoc]
    rfl
  exact he ▸ ⟨h.opened.snoc <| member_named hn hv, h.spells.append <| hc.append <| spells_member hn hv⟩

theorem Opens.nextIf (h : Opens members text) (p : Bool) (name : String) (hn : name.toList.all Json.isPlain)
    (hk : ascii key = byte ',' :: Json.quote (ascii name) ++ [byte ':']) (hv : Writes value valueText) :
    Opens (members ++ if p then [named name value] else [])
      (text ++ if p then ascii key ++ valueText else []) := by
  cases p
  case false => simpa using h
  case true  => simpa using h.next name hn hk hv

theorem Opens.close (h : Opens members text) : Writes (.object members) (text ++ ascii "\x7d") where
  isText := h.opened.close
  spells := h.spells.append <| spells_of_visible (by decide)

theorem Opens.closeLine (h : Opens members text) : WritesLine (.object members) (text ++ ascii "\x7d\n") :=
  ⟨text ++ ascii "\x7d", by rw [List.append_assoc]; rfl, h.close⟩

end

section

variable {α : Type} {l : List α} {f : α → Json} {g : α → Bytes}

theorem spells_intercalate {separator : Bytes} {texts : List Bytes} (hs : Utf8.Spells IsPrintable separator)
    (h : ∀ text ∈ texts, Utf8.Spells IsPrintable text) :
    Utf8.Spells IsPrintable (separator.intercalate texts) := by
  induction texts
  case nil => exact .nil
  case cons text texts hi =>
    simp only [List.mem_cons, forall_eq_or_imp] at h
    cases texts
    case nil  => simpa using h.left
    case cons =>
      rw [List.intercalate_cons_cons]
      exact (h.left.append hs).append (hi h.right)

theorem writes_array (h : ∀ a ∈ l, Writes (f a) (g a)) :
    Writes (.array (l.map f)) (writeJsonArray (l.map g)) where
  isText := by
    refine .array <| List.forall₂_map_left_iff.mpr <| List.forall₂_map_right_iff.mpr ?_
    exact List.forall₂_same.mpr fun a ha => (h a ha).isText
  spells := by
    refine .append (.append (spells_of_visible (by decide)) ?_) (spells_of_visible (by decide))
    refine spells_intercalate (spells_of_visible (by decide)) fun text ht => ?_
    have ⟨a, ha, he⟩ := List.mem_map.mp ht
    exact he ▸ (h a ha).spells

end

section

variable {value : Bytes} {values : List Bytes} {n : ℕ} {b : Bool}

theorem writes_string : Writes (Document.string value) (writeJsonString value) where
  isText := .string (escapeJson_spec value).left
  spells := spells_quote (escapeJson_spec value).right

theorem writes_strings : Writes (Document.strings values) (writeJsonStringArray values) :=
  writes_array fun _ _ => writes_string

theorem Document.string_ascii {name : String} (h : name.toList.all Json.isPlain) :
    Document.string (ascii name) = .string name.toList :=
  congrArg Json.string <| Utf8.decode_map_byte fun c hc =>
    Json.lt_of_isPlain <| List.all_eq_true.mp h c hc

theorem writes_plain {name : String} (h : name.toList.all Json.isPlain) :
    Writes (Document.string <| ascii name) (Json.quote <| ascii name) where
  isText := by
    rw [Document.string_ascii h]
    exact .string (Json.unescape_plain h)
  spells := spells_quote (spells_ascii h)

theorem writes_bool : Writes (.bool b) (trueOrFalse b) := by
  cases b
  case false => exact ⟨.false, spells_of_visible (by decide)⟩
  case true  => exact ⟨.true, spells_of_visible (by decide)⟩

theorem writes_null : Writes .null (ascii "null") :=
  ⟨.null, spells_of_visible (by decide)⟩

theorem isVisible_digit {b : UInt8} (h : Json.IsDigit b) : isVisible b := by
  have hl : 0x20 ≤ b := le_trans (by decide) h.left
  have hu : b < 0x7F := lt_of_le_of_lt h.right (by decide)
  simp [isVisible, hl, hu]

theorem spells_digits {digits : Bytes} (h : ∀ b ∈ digits, Json.IsDigit b) :
    Utf8.Spells IsPrintable digits :=
  spells_of_visible <| List.all_eq_true.mpr fun b hb => isVisible_digit (h b hb)

theorem spells_fraction {text : Bytes} (h : Json.IsFraction text) : Utf8.Spells IsPrintable text := by
  have hp : Utf8.Spells IsPrintable [byte '.'] := spells_of_visible (by decide)
  cases h
  case none        => exact .nil
  case digits _ hd => exact hp.append <| spells_digits hd

theorem spells_exponent {text : Bytes} (h : Json.IsExponent text) : Utf8.Spells IsPrintable text := by
  have he : (ascii "eE").all isVisible := by decide
  have hs : ∀ sign ∈ [[], ascii "+", ascii "-"], sign.all isVisible := by decide
  cases h
  case none => exact .nil
  case digits e sign _ hm hms _ hd =>
    have hv : isVisible e := List.all_eq_true.mp he e hm
    have hp : Utf8.Spells IsPrintable (e :: sign) := spells_of_visible <| by rw [List.all_cons, hv, hs sign hms]; rfl
    exact hp.append <| spells_digits hd

theorem spells_number {text : Bytes} (h : Json.IsNumber text) : Utf8.Spells IsPrintable text := by
  have hs : ∀ sign ∈ [[], ascii "-"], sign.all isVisible := by decide
  cases h
  case intro sign int _ _ hm hi hf he =>
    have hd : ∀ b ∈ int, Json.IsDigit b := by
      cases hi
      case zero            => simpa using ⟨le_rfl, (by decide : byte '0' ≤ byte '9')⟩
      case digits hb _ hds => simpa using ⟨hb, hds⟩
    exact (((spells_of_visible <| hs sign hm).append <| spells_digits hd).append <| spells_fraction hf).append <|
      spells_exponent he

theorem writes_natural : Writes (Document.natural n) (decimal n) :=
  ⟨.number <| Json.isNumber_decimal n, spells_number <| Json.isNumber_decimal n⟩

theorem writes_entryValue {entry : KnowledgeEntry} :
    Writes (Document.entry entry) (writeJsonEntryValue entry) :=
  Opens.first "id" rfl rfl writes_string
    |>.next "title" rfl rfl writes_string
    |>.next "type" rfl rfl writes_string
    |>.next "command" rfl rfl writes_string
    |>.next "aliases" rfl rfl writes_strings
    |>.next "keywords" rfl rfl writes_strings
    |>.next "related" rfl rfl writes_strings
    |>.next "intent" rfl rfl writes_strings
    |>.next "difficulty" rfl rfl writes_string
    |>.next "platforms" rfl rfl writes_strings
    |>.next "tags" rfl rfl writes_strings
    |>.next "examples" rfl rfl writes_strings
    |>.next "category" rfl rfl writes_string
    |>.next "content" rfl rfl writes_string
    |>.close

theorem writes_entrySummary {entry : KnowledgeEntry} :
    Writes (Document.summary entry) (writeJsonEntrySummary entry) :=
  Opens.first "id" rfl rfl writes_string
    |>.next "title" rfl rfl writes_string
    |>.next "type" rfl rfl writes_string
    |>.next "command" rfl rfl writes_string
    |>.next "category" rfl rfl writes_string
    |>.close

theorem writes_diagnostic {scope : String} {diagnostic : Diagnostic} :
    Writes (Document.diagnostic scope diagnostic) (writeJsonDiagnostic scope diagnostic) :=
  Opens.first "scope" rfl rfl writes_string
    |>.next "severity" rfl rfl writes_string
    |>.next "path" rfl rfl writes_string
    |>.next "entry_id" rfl rfl writes_string
    |>.next "message" rfl rfl writes_string
    |>.close

end

namespace Renderer

section

variable {K : Type} [Zero K] [DecidableEq K] {numerics : Numerics K}
  (hg : ∀ value, numerics.isFinite value → value ≠ 0 → Json.IsNumber (numerics.general value))

include hg

theorem writes_number {value : K} : Writes (Document.number numerics value) (writeJsonNumber numerics value) := by
  unfold Document.number writeJsonNumber
  split
  case isTrue     => exact writes_null
  case isFalse hf =>
    split
    case isTrue     => exact writes_natural
    case isFalse hz =>
      have hn := hg value (by simpa using hf) hz
      exact ⟨.number hn, spells_number hn⟩

variable [Add K]

theorem writes_breakdown {breakdown : ScoreBreakdown K} :
    Writes (Document.breakdown numerics breakdown) (writeJsonBreakdown numerics breakdown) :=
  Opens.first "exact_alias" rfl rfl (writes_number hg)
    |>.next "phrase" rfl rfl (writes_number hg)
    |>.next "command" rfl rfl (writes_number hg)
    |>.next "keywords" rfl rfl (writes_number hg)
    |>.next "concepts" rfl rfl (writes_number hg)
    |>.next "intent" rfl rfl (writes_number hg)
    |>.next "title" rfl rfl (writes_number hg)
    |>.next "token_idf" rfl rfl (writes_number hg)
    |>.next "fuzzy" rfl rfl (writes_number hg)
    |>.next "total" rfl rfl (writes_number hg)
    |>.close

theorem writes_result {result : SearchResult K} {explain : Bool} :
    Writes (Document.result numerics explain result) (writeJsonSearchResult numerics result explain) :=
  Opens.first "id" rfl rfl writes_string
    |>.next "title" rfl rfl writes_string
    |>.next "score" rfl rfl (writes_number hg)
    |>.next "fuzzy_used" rfl rfl writes_bool
    |>.next "match_reasons" rfl rfl writes_strings
    |>.nextIf explain "breakdown" rfl rfl (writes_breakdown hg)
    |>.close

omit [Zero K] [DecidableEq K] [Add K] hg in
theorem writes_selected {results : List (SearchResult K)} {decision : PolicyDecision K} :
    Writes (Document.selected results decision) (selectedEntry results decision) := by
  unfold Document.selected selectedEntry
  generalize selectedResult results decision = selected
  cases decision.status
  case confident =>
    cases selected
    case none => exact writes_null
    case some => exact writes_entryValue
  all_goals exact writes_null

theorem writes_search {response : SearchResponse K} {decision : PolicyDecision K} {limit : ℕ} {explain : Bool} :
    WritesLine (Document.search numerics response decision limit explain)
      (searchJson numerics response decision limit explain) := by
  have hr : Writes (.array <| (limitedResults response limit).map <| Document.result numerics explain)
      (writeJsonArray <| (limitedResults response limit).map (writeJsonSearchResult numerics · explain)) :=
    writes_array fun _ _ => writes_result hg
  exact Opens.first "status" rfl rfl writes_string
    |>.next "query" rfl rfl writes_string
    |>.next "query_type" rfl rfl writes_string
    |>.next "concepts" rfl rfl writes_strings
    |>.next "results" rfl rfl hr
    |>.next "entry" rfl rfl writes_selected
    |>.closeLine

end

section

variable {entry : KnowledgeEntry} {knowledge : KnowledgeBase} {knowledgeReport : KnowledgeLoadReport}
  {conceptReport : ConceptLoadReport} {lintReport : KnowledgeLintReport}

theorem writes_shown : WritesLine (Document.shown entry) (entryJson entry) := by
  have hs : ascii "\x7b\"status\":\"ok\",\"entry\":" =
      ascii "\x7b" ++ ascii "\"status\":" ++ Json.quote (ascii "ok") ++ ascii ",\"entry\":" := rfl
  rw [entryJson, hs]
  exact Opens.first "status" rfl rfl (writes_plain rfl)
    |>.next "entry" rfl rfl writes_entryValue
    |>.closeLine

theorem writes_list : WritesLine (Document.list knowledge) (listJson knowledge) := by
  have hs : ascii "\x7b\"status\":\"ok\",\"count\":" =
      ascii "\x7b" ++ ascii "\"status\":" ++ Json.quote (ascii "ok") ++ ascii ",\"count\":" := rfl
  rw [listJson, hs]
  exact Opens.first "status" rfl rfl (writes_plain rfl)
    |>.next "count" rfl rfl writes_natural
    |>.next "entries" rfl rfl (writes_array fun _ _ => writes_entrySummary)
    |>.closeLine

theorem writes_knowledge : Writes (Document.knowledge knowledgeReport) (knowledgeJson knowledgeReport) :=
  Opens.first "root_available" rfl rfl writes_bool
    |>.next "discovered_entries" rfl rfl writes_natural
    |>.next "loaded_entries" rfl rfl writes_natural
    |>.next "skipped_entries" rfl rfl writes_natural
    |>.next "empty" rfl rfl writes_bool
    |>.close

theorem writes_concepts : Writes (Document.concepts conceptReport) (conceptsJson conceptReport) :=
  Opens.first "file_present" rfl rfl writes_bool
    |>.next "usable" rfl rfl writes_bool
    |>.next "concepts_loaded" rfl rfl writes_natural
    |>.close

theorem writes_lint : Writes (Document.lint lintReport) (lintJson lintReport) :=
  Opens.first "performed" rfl rfl writes_bool
    |>.next "entries_checked" rfl rfl writes_natural
    |>.next "aliases_checked" rfl rfl writes_natural
    |>.next "keywords_checked" rfl rfl writes_natural
    |>.next "concepts_checked" rfl rfl writes_natural
    |>.close

theorem writes_validation : WritesLine (Document.validation knowledgeReport conceptReport lintReport)
    (validationJson knowledgeReport conceptReport lintReport) :=
  Opens.first "status" rfl rfl writes_string
    |>.next "knowledge" rfl rfl writes_knowledge
    |>.next "concepts" rfl rfl writes_concepts
    |>.next "lint" rfl rfl writes_lint
    |>.next "diagnostics" rfl rfl (writes_array fun _ _ => writes_diagnostic)
    |>.closeLine

end

end Renderer

end Howlinux
