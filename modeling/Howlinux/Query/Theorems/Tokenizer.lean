import Howlinux.Query.Tokenizer
import Howlinux.Library.Lists

open Bytes List

namespace Howlinux

section Bytes

variable (value : UInt8)

theorem isChunkByte_asciiLower : isChunkByte (asciiLower value) = isChunkByte value := by
  revert value; decide +kernel

@[simp]
theorem asciiLower_asciiLower : asciiLower (asciiLower value) = asciiLower value := by
  revert value; decide +kernel

variable {value}

theorem isChunkByte_of_isWordByte (h : isWordByte value) : isChunkByte value := by
  simp [isChunkByte, h]

theorem isWordByte_of_isAsciiDigit (h : isAsciiDigit value) : isWordByte value := by
  simp [isWordByte, h]

theorem not_isChunkByte_of_isRedirection (h : isRedirection value) : isChunkByte value = false := by
  revert value; decide +kernel

theorem isWordByte_ne (h : isWordByte value) : value ≠ byte '.' ∧ isWordBoundary value = false := by
  revert value; decide +kernel

end Bytes

-- The three shapes of a token: a dotted word, an option and a redirection.

inductive Dotted : Bytes → Prop
  | last : isWordByte value → Dotted [value]
  | word : isWordByte value → Dotted token → Dotted (value :: token)
  | dot  : isWordByte value → Dotted token → Dotted (value :: byte '.' :: token)

structure IsOption (token : Bytes) : Prop where
  flag   : isFlagChunk token
  chunk  : ∀ value ∈ token, isChunkByte value
  no_dot : token.getLast? ≠ some (byte '.')

inductive IsToken : Bytes → Prop
  | word : Dotted token → (∀ value ∈ token, asciiLower value = value) → IsToken token
  | option : IsOption token → (∀ value ∈ token, asciiLower value = value) → IsToken token
  | redirection :
    isAllDigits digits → isRedirection direction →
    IsToken (digits ++ direction :: replicate n direction)

namespace Dotted

variable {token : Bytes} {value : UInt8}

theorem head_isWordByte : (Dotted token) → token.head?.any isWordByte
  | last h | word h _ | dot h _ => by simp [h]

theorem ne_nil : (Dotted token) → token ≠ []
  | last _ | word .. | dot .. => by simp

theorem mem (d : Dotted token) (h : value ∈ token) : isWordByte value ∨ value = byte '.' := by
  induction d <;> simp at h <;> grind

theorem chunk (d : Dotted token) : ∀ value ∈ token, isChunkByte value := by
  intro value h
  cases d.mem h
  case inl h => exact isChunkByte_of_isWordByte h
  case inr h => simp [h, isChunkByte]

theorem snoc (d : Dotted token) (h : isWordByte value) : Dotted (token ++ [value]) := by
  induction d
  case last hv       => exact .word hv <| .last h
  case word hv _ hi  => exact .word hv hi
  case dot hv _ hi   => exact .dot hv hi

theorem snoc_dot (d : Dotted token) (h : isWordByte value) :
    Dotted (token ++ [byte '.', value]) := by
  induction d
  case last hv       => exact .dot hv <| .last h
  case word hv _ hi  => exact .word hv hi
  case dot hv _ hi   => exact .dot hv hi

end Dotted

-- What `appendDotAware` holds back while it reads on.
inductive Pending (rest : Bytes) : Bytes → Prop
  | empty : Pending rest []
  | word  : Dotted token → Pending rest token
  | dot   : Dotted token → rest.head?.any isWordByte → Pending rest (token ++ [byte '.'])

theorem mem_flush_iff {token t : Bytes} : t ∈ flush token ↔ t = token ∧ token ≠ [] := by
  cases token <;> simp [flush]

theorem appendDotAware_dotted {rest token t : Bytes} (p : Pending rest token)
    (h : t ∈ appendDotAware token rest) : Dotted t := by
  fun_induction appendDotAware token rest
  case case1 token =>
    obtain ⟨rfl, hn⟩ := mem_flush_iff.mp h
    cases p
    case empty     => contradiction
    case word d    => exact d
    case dot _ hw  => simp at hw
  case case2 token value rest hv hi =>
    refine hi ?_ h
    cases p
    case empty    => exact .word <| .last hv
    case word d   => exact .word <| d.snoc hv
    case dot d _  => exact .word <| by simpa using d.snoc_dot hv
  case case3 token value rest _ hv hi =>
    refine hi ?_ h
    simp only [Bool.and_eq_true, beq_iff_eq, Bool.not_eq_true', isEmpty_eq_false_iff] at hv
    cases p
    case empty     => simp at hv
    case word d    => exact .dot d hv.right
    case dot _ hw  => simp_all
  case case4 token value rest hw _ hi =>
    cases mem_append.mp h
    case inr h => exact hi .empty h
    case inl h =>
      obtain ⟨rfl, hn⟩ := mem_flush_iff.mp h
      cases p
      case empty    => contradiction
      case word d   => exact d
      case dot _ h  => simp_all

theorem mem_of_mem_appendDotAware {rest token t : Bytes} {value : UInt8}
    (h : t ∈ appendDotAware token rest) (hv : value ∈ t) : value ∈ token ∨ value ∈ rest := by
  fun_induction appendDotAware token rest
  case case1 => exact .inl <| (mem_flush_iff.mp h).left ▸ hv
  case case2 hi => simpa [or_assoc] using hi h
  case case3 hd hi =>
    have := hi h
    simp_all [or_assoc]
  case case4 hi =>
    cases mem_append.mp h
    case inl h => exact .inl <| (mem_flush_iff.mp h).left ▸ hv
    case inr h =>
      have := hi h
      simp_all

theorem Dotted.appendDotAware {t : Bytes} (d : Dotted t) (token : Bytes) :
    Howlinux.appendDotAware token t = [token ++ t] := by
  induction d generalizing token
  case last h      => simp [Howlinux.appendDotAware, h, flush]
  case word h _ hi => simp [Howlinux.appendDotAware, h, hi]
  case dot h d hi  =>
    have hd : isWordByte (byte '.') = false := by decide
    simp [Howlinux.appendDotAware, h, hd, hi, d.head_isWordByte]

theorem isFlagChunk_one_dash {rest : Bytes} (h : rest.head? ≠ some (byte '-')) :
    isFlagChunk (byte '-' :: rest) = rest.any isWordByte := by
  cases rest <;> simp_all [isFlagChunk]

theorem isFlagChunk_two_dashes {rest : Bytes} :
    isFlagChunk (byte '-' :: byte '-' :: rest) =
      (rest.head? != some (byte '-') && rest.any isWordByte) := by
  cases rest
  case nil       => simp [isFlagChunk]
  case cons b bs => by_cases h : b = byte '-' <;> simp [isFlagChunk, h]

theorem isFlagChunk_iff {chunk : Bytes} :
    isFlagChunk chunk ↔ ∃ rest, (chunk = byte '-' :: rest ∨ chunk = byte '-' :: byte '-' :: rest) ∧
      rest.head? ≠ some (byte '-') ∧ ∃ value ∈ rest, isWordByte value := by
  constructor
  case mp =>
    intro h
    match chunk with
    | [] | [_] => simp [isFlagChunk] at h
    | a :: b :: rest =>
      obtain rfl : a = byte '-' := by by_contra ha; simp [isFlagChunk, ha] at h
      by_cases hb : b = byte '-'
      case pos =>
        subst hb
        rw [isFlagChunk_two_dashes] at h
        exact ⟨rest, .inr rfl, by simpa using h⟩
      case neg =>
        have hh : (b :: rest).head? ≠ some (byte '-') := by simpa using hb
        rw [isFlagChunk_one_dash hh] at h
        exact ⟨b :: rest, .inl rfl, hh, by simpa using h⟩
  case mpr =>
    rintro ⟨rest, rfl | rfl, hh, hw⟩
    · rw [isFlagChunk_one_dash hh]
      simpa using hw
    · simp [isFlagChunk_two_dashes, hh, hw]

theorem exists_popTrailingDots_append (flag : Bytes) :
    ∃ dots, popTrailingDots flag ++ dots = flag ∧ ∀ value ∈ dots, value = byte '.' :=
  ⟨flag.rtakeWhile (· == byte '.'), rdropWhile_append_rtakeWhile,
    fun _ hv => eq_of_beq <| mem_rtakeWhile_imp (p := (· == byte '.')) hv⟩

theorem popTrailingDots_subset {flag : Bytes} {value : UInt8} (h : value ∈ popTrailingDots flag) :
    value ∈ flag := by
  have ⟨_, hr, _⟩ := exists_popTrailingDots_append flag
  exact hr ▸ mem_append_left _ h

theorem popTrailingDots_no_dot {flag : Bytes} :
    (popTrailingDots flag).getLast? ≠ some (byte '.') := by
  intro h
  have hn : flag.rdropWhile (· == byte '.') ≠ [] := by rintro hn; simp [popTrailingDots, hn] at h
  have := rdropWhile_last_not _ _ hn
  simp_all [popTrailingDots, getLast?_eq_some_getLast hn]

theorem mem_popTrailingDots {flag : Bytes} {value : UInt8} (h : value ∈ flag)
    (hv : isWordByte value) : value ∈ popTrailingDots flag := by
  have ⟨dots, hd, hb⟩ := exists_popTrailingDots_append flag
  cases mem_append.mp <| hd ▸ h
  case inl h => exact h
  case inr h => exact absurd (hb value h) (isWordByte_ne hv).left

theorem isFlagChunk_popTrailingDots {chunk : Bytes} (h : isFlagChunk chunk) :
    isFlagChunk (popTrailingDots chunk) := by
  have ⟨rest, hc, hh, value, hv, hw⟩ := isFlagChunk_iff.mp h
  have hd : ∃ x ∈ rest, (x == byte '.') = false := ⟨value, hv, by simp [isWordByte_ne hw]⟩
  refine isFlagChunk_iff.mpr ⟨popTrailingDots rest, ?_, ?_, value, mem_popTrailingDots hv hw, hw⟩
  case refine_1 =>
    refine hc.imp ?_ ?_ <;> rintro rfl
    · exact rdropWhile_append_of_mem (a := [_]) hd
    · exact rdropWhile_append_of_mem (a := [_, _]) hd
  case refine_2 =>
    have hm := mem_popTrailingDots hv hw
    have ⟨dots, hp, _⟩ := exists_popTrailingDots_append rest
    cases ht : popTrailingDots rest
    case nil  => simp [ht] at hm
    case cons => rw [← hp, ht] at hh; simpa using hh

theorem isToken_of_mem_appendChunk {chunk t : Bytes} (hc : ∀ value ∈ chunk, isChunkByte value)
    (hl : ∀ value ∈ chunk, asciiLower value = value) (h : t ∈ appendChunk chunk) : IsToken t := by
  unfold appendChunk at h
  split at h
  case isTrue => simp at h
  case isFalse =>
    split at h
    case isTrue hf =>
      obtain ⟨rfl, _⟩ := mem_flush_iff.mp h
      refine .option ⟨isFlagChunk_popTrailingDots hf, ?_, popTrailingDots_no_dot⟩ ?_
      · exact fun value hv => hc value <| popTrailingDots_subset hv
      · exact fun value hv => hl value <| popTrailingDots_subset hv
    case isFalse =>
      have ⟨segment, hs, ht⟩ := mem_flatMap.mp h
      refine .word (appendDotAware_dotted .empty ht) fun value hv => ?_
      cases mem_of_mem_appendDotAware ht hv
      case inl hn => simp at hn
      case inr hm => exact hl value <| mem_of_mem_splitOnP hs hm

theorem redirectionRun_eq {chunk rest : Bytes} (h : redirectionRun chunk rest ≠ []) :
    isAllDigits chunk ∧ ∃ direction n, isRedirection direction ∧
      redirectionRun chunk rest = direction :: replicate n direction := by
  cases rest
  case nil => simp [redirectionRun] at h
  case cons direction rest =>
    simp only [redirectionRun] at h ⊢
    split at h
    case isFalse => contradiction
    case isTrue hd =>
      simp only [Bool.and_eq_true] at hd
      refine ⟨hd.left, direction, (rest.takeWhile (· == direction)).length, hd.right, ?_⟩
      simp only [hd, Bool.and_self, if_true, cons.injEq, true_and]
      exact eq_replicate_of_mem fun b hb => by simpa using mem_takeWhile_imp hb

-- Every token the scanner emits has one of the three shapes.
theorem isToken_of_mem_lexicalTokens {input t : Bytes} (h : t ∈ lexicalTokens input) :
    IsToken t := by
  fun_induction lexicalTokens input
  case case1 => simp at h
  case case2 hi => exact hi h
  case case3 value rest hv chunk rest' run hr hi =>
    cases mem_append.mp h
    case inr h => exact hi h
    case inl h =>
      refine isToken_of_mem_appendChunk ?_ (by simp [chunk]) h
      intro b hb
      have ⟨a, ha, he⟩ := mem_map.mp hb
      rw [← he, isChunkByte_asciiLower]
      cases mem_cons.mp ha
      case inl ha => simpa [ha] using hv
      case inr ha => exact mem_takeWhile_imp ha
  case case4 value rest hv chunk rest' run hr hi =>
    cases mem_cons.mp h
    case inr h => exact hi h
    case inl h =>
      have hn : redirectionRun chunk rest' ≠ [] := by simpa [run] using hr
      have ⟨hd, direction, n, hi, he⟩ := redirectionRun_eq hn
      simp only [run, he] at h
      exact h ▸ .redirection hd hi

-- Rescanning a token between blanks gives the token back.

def Separated (rest : Bytes) : Prop :=
  ∀ value ∈ rest.head?, value = byte ' '

theorem Separated.not_isChunkByte {rest : Bytes} (h : Separated rest) :
    ∀ value ∈ rest.head?, isChunkByte value = false := by
  intro value hv
  cases h value hv
  decide

theorem redirectionRun_of_separated {chunk rest : Bytes} (h : Separated rest) :
    redirectionRun chunk rest = [] := by
  cases rest
  case nil => rfl
  case cons direction rest =>
    obtain rfl : direction = byte ' ' := h direction rfl
    have : isRedirection (byte ' ') = false := by decide
    simp [redirectionRun, this]

theorem map_asciiLower {t : Bytes} (h : ∀ value ∈ t, asciiLower value = value) :
    t.map asciiLower = t := by
  simpa using map_congr_left (g := id) h

theorem lexicalTokens_chunk {t rest : Bytes} (hn : t ≠ []) (hc : ∀ value ∈ t, isChunkByte value)
    (hl : ∀ value ∈ t, asciiLower value = value) (hs : Separated rest) :
    lexicalTokens (t ++ rest) = appendChunk t ++ lexicalTokens rest := by
  cases t
  case nil => contradiction
  case cons value t =>
    have hv := hc value mem_cons_self
    have ht := fun b hb => hc b <| mem_cons_of_mem _ hb
    rw [cons_append, lexicalTokens]
    simp only [hv, Bool.not_true, Bool.false_eq_true, if_false]
    rw [takeWhile_append_of_stop ht hs.not_isChunkByte, map_asciiLower hl,
      dropWhile_append_of_stop ht hs.not_isChunkByte, redirectionRun_of_separated hs]
    simp

theorem lexicalTokens_redirection {digits rest : Bytes} {direction : UInt8} {n : ℕ}
    (hd : isAllDigits digits) (hr : isRedirection direction) (hs : Separated rest) :
    lexicalTokens (digits ++ direction :: replicate n direction ++ rest) =
      (digits ++ direction :: replicate n direction) :: lexicalTokens rest := by
  have ha : ∀ b ∈ digits, isAsciiDigit b := by
    simp only [isAllDigits, Bool.and_eq_true, all_eq_true] at hd
    exact hd.right
  have hl : ∀ b ∈ digits, asciiLower b = b := by
    have : ∀ b, isAsciiDigit b → asciiLower b = b := by decide +kernel
    exact fun b hb => this b <| ha b hb
  have hrun : ∀ b ∈ rest.head?, (b == direction) = false := by
    intro b hb
    cases hs b hb
    simp only [isRedirection, Bool.or_eq_true, beq_iff_eq] at hr
    obtain rfl | rfl := hr <;> decide
  cases digits
  case nil => simp [isAllDigits] at hd
  case cons value digits =>
    have hc b (hb : b ∈ value :: digits) :=
      isChunkByte_of_isWordByte <| isWordByte_of_isAsciiDigit <| ha b hb
    have hv := hc value mem_cons_self
    have hc' := fun b hb => hc b <| mem_cons_of_mem _ hb
    have hstop : ∀ b ∈ (direction :: replicate n direction ++ rest).head?, isChunkByte b = false := by
      simpa using not_isChunkByte_of_isRedirection hr
    rw [cons_append, cons_append, append_assoc, lexicalTokens]
    simp only [hv, Bool.not_true, Bool.false_eq_true, if_false]
    rw [takeWhile_append_of_stop hc' hstop, map_asciiLower hl,
      dropWhile_append_of_stop hc' hstop]
    simp only [cons_append, redirectionRun, hd, hr, Bool.and_self, if_true]
    rw [takeWhile_append_of_stop (by simp) hrun]
    simp

theorem Dotted.appendChunk {t : Bytes} (d : Dotted t) : Howlinux.appendChunk t = [t] := by
  have hf : isFlagChunk t = false := by
    have hw : isWordByte (byte '-') = false := by decide
    by_contra h
    have ⟨rest, h, _⟩ := isFlagChunk_iff.mp <| Bool.not_eq_false _ ▸ h
    have := d.head_isWordByte
    obtain rfl | rfl := h <;> simp [hw] at this
  have hb : ∀ b ∈ t, isWordBoundary b = false := by
    intro b hb
    cases d.mem hb
    case inl h => exact (isWordByte_ne h).right
    case inr h => subst h; decide
  simp [Howlinux.appendChunk, hf, d.ne_nil, splitOnP_eq_singleton hb, d.appendDotAware]

theorem IsOption.appendChunk {t : Bytes} (o : IsOption t) : Howlinux.appendChunk t = [t] := by
  have hn : t ≠ [] := by rintro rfl; simpa [isFlagChunk] using o.flag
  have hp : popTrailingDots t = t := by
    refine rdropWhile_eq_self_iff.mpr fun hl => ?_
    have := o.no_dot
    simpa [getLast?_eq_some_getLast hl] using this
  simp [Howlinux.appendChunk, hn, o.flag, hp, flush]

namespace IsToken

variable {t : Bytes}

theorem ne_nil : (IsToken t) → t ≠ []
  | word d _        => d.ne_nil
  | option o _      => by rintro rfl; simpa [isFlagChunk] using o.flag
  | redirection ..  => by simp

theorem rescan {rest : Bytes} (hs : Separated rest) :
    (IsToken t) → lexicalTokens (t ++ rest) = t :: lexicalTokens rest
  | word d hl         => by simp [lexicalTokens_chunk d.ne_nil d.chunk hl hs, d.appendChunk]
  | option o hl       => by
    have hn := (option o hl).ne_nil
    simp [lexicalTokens_chunk hn o.chunk hl hs, o.appendChunk]
  | redirection hd hr => lexicalTokens_redirection hd hr hs

theorem no_blank (h : IsToken t) : byte ' ' ∉ t := by
  intro hb
  cases h
  case word d _    => exact absurd (d.chunk _ hb) (by decide)
  case option o _  => exact absurd (o.chunk _ hb) (by decide)
  case redirection hd hr =>
    simp only [isAllDigits, Bool.and_eq_true, all_eq_true] at hd
    cases mem_append.mp hb
    case inl hb => exact absurd (hd.right _ hb) (by decide)
    case inr hb =>
      obtain h | ⟨_, h⟩ := by simpa using hb
      all_goals exact absurd (h ▸ hr) (by decide)

end IsToken

-- The blanks `joinTokens` writes in front of every token but the first.
def blankSeparated (tokens : List Bytes) : Bytes :=
  tokens.flatMap (byte ' ' :: ·)

theorem joinTokens_cons {token : Bytes} {tokens : List Bytes} (h : token ≠ []) :
    joinTokens (token :: tokens) = token ++ blankSeparated tokens := by
  have go (output : Bytes) (ho : output ≠ []) (tokens : List Bytes) :
      tokens.foldl (fun output token =>
        (if output.isEmpty then output else output ++ [byte ' ']) ++ token) output =
      output ++ blankSeparated tokens := by
    induction tokens generalizing output
    case nil => simp [blankSeparated]
    case cons token tokens hi =>
      rw [foldl_cons, hi _ (by simp [ho])]
      simp [ho, blankSeparated]
  simpa [joinTokens] using go token h tokens

theorem separated_append {tokens : List Bytes} {rest : Bytes} (hs : Separated rest) :
    Separated (blankSeparated tokens ++ rest) := by
  cases tokens
  case nil  => simpa [blankSeparated] using hs
  case cons => simp [blankSeparated, Separated]

theorem lexicalTokens_blankSeparated {tokens : List Bytes} {rest : Bytes} (h : ∀ t ∈ tokens, IsToken t)
    (hs : Separated rest) : lexicalTokens (blankSeparated tokens ++ rest) = tokens ++ lexicalTokens rest := by
  induction tokens
  case nil => rfl
  case cons token tokens hi =>
    simp only [mem_cons, forall_eq_or_imp] at h
    have hb : isChunkByte (byte ' ') = false := by decide
    have he : blankSeparated (token :: tokens) ++ rest =
        byte ' ' :: (token ++ (blankSeparated tokens ++ rest)) := by
      simp [blankSeparated]
    rw [he, lexicalTokens]
    simp [hb, h.left.rescan (separated_append hs), hi h.right]

theorem lexicalTokens_joinTokens_append {tokens : List Bytes} {rest : Bytes} (h : ∀ t ∈ tokens, IsToken t)
    (hn : tokens ≠ []) (hs : Separated rest) :
    lexicalTokens (joinTokens tokens ++ rest) = tokens ++ lexicalTokens rest := by
  cases tokens
  case nil => contradiction
  case cons token tokens =>
    simp only [mem_cons, forall_eq_or_imp] at h
    rw [joinTokens_cons h.left.ne_nil, append_assoc, h.left.rescan (separated_append hs),
      lexicalTokens_blankSeparated h.right hs, cons_append]

theorem lexicalTokens_joinTokens {tokens : List Bytes} (h : ∀ t ∈ tokens, IsToken t) :
    lexicalTokens (joinTokens tokens) = tokens := by
  by_cases hn : tokens = []
  case pos => simp [hn, joinTokens, lexicalTokens]
  case neg =>
    have hs : Separated [] := by simp [Separated]
    simpa [lexicalTokens] using lexicalTokens_joinTokens_append h hn hs

theorem mem_of_mem_tokenizeLoop {removeStopwords deduplicate : Bool} {seen tokens : List Bytes}
    {t : Bytes} (h : t ∈ tokenizeLoop removeStopwords deduplicate seen tokens) : t ∈ tokens := by
  induction tokens generalizing seen
  case nil => simp [tokenizeLoop] at h
  case cons token tokens hi =>
    simp only [tokenizeLoop] at h
    grind

theorem isToken_of_mem_tokenize {input t : Bytes} {removeStopwords deduplicate : Bool}
    (h : t ∈ tokenize input removeStopwords deduplicate) : IsToken t :=
  isToken_of_mem_lexicalTokens <| mem_of_mem_tokenizeLoop h

theorem tokenizeLoop_keep {removeStopwords : Bool} {seen tokens : List Bytes} :
    tokenizeLoop removeStopwords false seen tokens =
      tokens.filter fun token => !(removeStopwords && isStopword token) := by
  induction tokens generalizing seen
  case nil          => rfl
  case cons hd _ hi => cases removeStopwords <;> cases h : isStopword hd <;> simp_all [tokenizeLoop]

theorem tokenizeLoop_deduplicate {removeStopwords : Bool} {seen tokens : List Bytes} :
    tokenizeLoop removeStopwords true seen tokens =
      ((tokenizeLoop removeStopwords false seen tokens).filter (!seen.contains ·)).eraseDups := by
  simp only [tokenizeLoop_keep]
  induction tokens generalizing seen
  case nil => rfl
  case cons hd tl hi =>
    cases h : removeStopwords && isStopword hd
    case true => simp_all [tokenizeLoop]
    case false =>
      by_cases hs : hd ∈ seen
      case pos => simp_all [tokenizeLoop]
      case neg =>
        simp only [tokenizeLoop, h, hi, Bool.true_and, hs, contains_eq_mem, decide_false,
          Bool.false_eq_true, if_false, Bool.not_false, filter_cons, if_true, eraseDups_cons,
          filter_filter, cons.injEq, true_and]
        congr 1
        refine filter_congr fun b _ => ?_
        by_cases hb : b = hd <;> simp [hb]

-- Deduplication keeps the first occurrence of every token.
theorem tokenize_deduplicate (input : Bytes) (removeStopwords : Bool) :
    tokenize input removeStopwords true = (tokenize input removeStopwords false).eraseDups := by
  simp [tokenize, tokenizeLoop_deduplicate]

theorem tokenize_stopwords (input : Bytes) :
    tokenize input true false = (tokenize input false false).filter (!isStopword ·) := by
  simp [tokenize, tokenizeLoop_keep]

theorem nodup_tokenize (input : Bytes) (removeStopwords : Bool) :
    (tokenize input removeStopwords true).Nodup := by
  rw [tokenize_deduplicate]
  exact nodup_eraseDups _

theorem not_isStopword_of_mem_tokenize {input t : Bytes} {deduplicate : Bool}
    (h : t ∈ tokenize input true deduplicate) : isStopword t = false := by
  cases deduplicate
  case' true => rw [tokenize_deduplicate, mem_eraseDups] at h
  all_goals
    rw [tokenize_stopwords, mem_filter] at h
    simpa using h.right

theorem tokenizeLoop_eq_self {removeStopwords deduplicate : Bool} {tokens : List Bytes}
    (hr : removeStopwords → ∀ t ∈ tokens, isStopword t = false) (hd : deduplicate → tokens.Nodup) :
    tokenizeLoop removeStopwords deduplicate [] tokens = tokens := by
  have hf : tokenizeLoop removeStopwords false [] tokens = tokens := by
    rw [tokenizeLoop_keep, filter_eq_self]
    cases removeStopwords <;> simp_all
  cases deduplicate
  case false => exact hf
  case true  => simp [tokenizeLoop_deduplicate, hf, eraseDups_of_nodup (hd rfl)]

-- Re-reading a joined token list with flags that drop no more than those it was made with.
theorem tokenize_joinTokens (input : Bytes) {removeStopwords deduplicate : Bool}
    {removeStopwords' deduplicate' : Bool} (hr : removeStopwords' ≤ removeStopwords)
    (hd : deduplicate' ≤ deduplicate) :
    tokenize (joinTokens (tokenize input removeStopwords deduplicate)) removeStopwords' deduplicate' =
      tokenize input removeStopwords deduplicate := by
  have ht : ∀ t ∈ tokenize input removeStopwords deduplicate, IsToken t :=
    fun _ => isToken_of_mem_tokenize
  rw [tokenize, lexicalTokens_joinTokens ht]
  apply tokenizeLoop_eq_self
  case hr =>
    intro h t hm
    obtain rfl := hr h
    exact not_isStopword_of_mem_tokenize hm
  case hd =>
    intro h
    obtain rfl := hd h
    exact nodup_tokenize ..

theorem joinTokens_injective {tokens tokens' : List Bytes} (h : ∀ t ∈ tokens, IsToken t)
    (h' : ∀ t ∈ tokens', IsToken t) (hj : joinTokens tokens = joinTokens tokens') :
    tokens = tokens' := by
  rw [← lexicalTokens_joinTokens h, hj, lexicalTokens_joinTokens h']

theorem joinTokens_eq_nil_iff {tokens : List Bytes} (h : ∀ t ∈ tokens, IsToken t) :
    joinTokens tokens = [] ↔ tokens = [] where
  mp hj := joinTokens_injective h (by simp) (hj.trans rfl : _ = joinTokens [])
  mpr   := by rintro rfl; rfl

end Howlinux
