import Howlinux.Library.Json
import Howlinux.Library.Lists

open Bytes

-- A text is the text of one value only, since it shows where each of its parts ends.
namespace Json

section

variable {b : UInt8} {c : Char} {content content' rest rest' chunk chunk' : Bytes} {chars chars' : List Char}

-- The bytes up to the closing quotation mark.
def untilQuote : Bytes → Bytes
  | [] => []
  | b :: rest =>
    if b = byte '"' then
      []
    else if b = byte '\\' then
      match rest with
      | []        => [b]
      | e :: rest => b :: e :: untilQuote rest
    else
      b :: untilQuote rest

-- Bytes that the search for the closing quotation mark passes over.
def Passes (chunk : Bytes) : Prop :=
  ∀ rest, untilQuote (chunk ++ rest) = chunk ++ untilQuote rest

theorem Passes.nil : Passes [] :=
  fun _ => rfl

theorem Passes.append (h : Passes chunk) (h' : Passes chunk') : Passes (chunk ++ chunk') := fun rest => by
  rw [List.append_assoc, h, h', List.append_assoc]

theorem Passes.cons (hq : b ≠ byte '"') (hb : b ≠ byte '\\') (h : Passes chunk) : Passes (b :: chunk) :=
  fun rest => by
    rw [List.cons_append, untilQuote.eq_def]
    dsimp only
    rw [if_neg hq, if_neg hb, h, List.cons_append]

theorem Passes.escaped (e : UInt8) : Passes [byte '\\', e] :=
  fun rest => by
    rw [List.cons_append, untilQuote.eq_def]
    dsimp only
    rw [if_neg (by decide), if_pos rfl]
    rfl

theorem passes_of_forall (h : ∀ b ∈ chunk, b ≠ byte '"' ∧ b ≠ byte '\\') : Passes chunk := by
  induction chunk
  case nil => exact .nil
  case cons b chunk hi =>
    have ⟨hb, hc⟩ := List.forall_mem_cons.mp h
    exact .cons hb.left hb.right (hi hc)

theorem ne_of_hexValue {n : ℕ} (h : hexValue b = some n) : b ≠ byte '"' ∧ b ≠ byte '\\' := by
  constructor <;> rintro rfl <;> contradiction

theorem exists_digits {n : ℕ} (h : hexNumber rest = some n) :
    ∃ digits, rest = digits ++ rest.drop 4 ∧ digits.length = 4 ∧ Passes digits := by
  match rest with
  | b₁ :: b₂ :: b₃ :: b₄ :: rest =>
    simp only [hexNumber, Option.bind_eq_bind, Option.bind_eq_some_iff] at h
    have ⟨_, h₁, _, h₂, _, h₃, _, h₄, _⟩ := h
    refine ⟨[b₁, b₂, b₃, b₄], rfl, rfl, passes_of_forall ?_⟩
    simp only [List.mem_cons, List.not_mem_nil, or_false, forall_eq_or_imp, forall_eq]
    exact ⟨ne_of_hexValue h₁, ne_of_hexValue h₂, ne_of_hexValue h₃, ne_of_hexValue h₄⟩
  | [] | [_] | [_, _] | [_, _, _] => contradiction

-- An escape sequence is passed over as a whole.
theorem exists_escaped {n : ℕ} (h : escape rest = some (c, n)) :
    ∃ chunk, byte '\\' :: rest = chunk ++ rest.drop n ∧ Passes chunk := by
  cases rest
  case nil => contradiction
  case cons b rest =>
    rw [escape] at h
    split at h
    case isTrue hu =>
      subst hu
      obtain ⟨high, hh, h⟩ := Option.bind_eq_some_iff.mp h
      obtain ⟨digits, hd, hl, hp⟩ := exists_digits hh
      split at h
      case isTrue =>
        cases h
        exact ⟨byte '\\' :: byte 'u' :: digits, congrArg (_ :: _ :: ·) hd, (Passes.escaped (byte 'u')).append hp⟩
      case isFalse =>
        split at h
        case isFalse   => contradiction
        case isTrue hs =>
          obtain ⟨low, hl, h⟩ := Option.bind_eq_some_iff.mp h
          obtain ⟨digits', hd', hl', hp'⟩ := exists_digits hl
          split at h
          case isFalse => contradiction
          case isTrue  =>
            have hn : 11 = n := (Prod.mk.inj <| Option.some.inj h).right
            obtain ⟨tail, ht⟩ := List.isPrefixOf_iff_prefix.mp hs.right
            have h₆ : rest.drop 6 = tail := by
              have : rest.drop 6 = (rest.drop 4).drop 2 := by rw [List.drop_drop]
              rw [this, ← ht]
              rfl
            have h₁₀ : rest.drop 10 = tail.drop 4 := by rw [← h₆, List.drop_drop]
            rw [h₆] at hd'
            refine ⟨byte '\\' :: byte 'u' :: digits ++ (byte '\\' :: byte 'u' :: digits'), ?_,
              ((Passes.escaped (byte 'u')).append hp).append ((Passes.escaped (byte 'u')).append hp')⟩
            have hr : rest = digits ++ (byte '\\' :: byte 'u' :: (digits' ++ rest.drop 10)) := by
              rw [h₁₀, ← hd']
              exact hd.trans <| congrArg _ ht.symm
            rw [← hn, List.drop_succ_cons]
            nth_rewrite 1 [hr]
            simp
    case isFalse =>
      obtain ⟨_, _, he⟩ := Option.map_eq_some_iff.mp h
      cases he
      exact ⟨[byte '\\', b], rfl, .escaped b⟩

theorem passes_utf8EncodeChar (hq : c ≠ '"') (hb : c ≠ '\\') : Passes (String.utf8EncodeChar c) := by
  have hne {d : Char} (hd : d.val.toNat < 0x80) (h : c ≠ d) : ∀ b ∈ String.utf8EncodeChar c, b ≠ byte d := by
    rintro b hm rfl
    have hv : (byte d).toNat = d.val.toNat := UInt8.toNat_ofNat_of_lt' (hd.trans (by decide))
    have := Utf8.eq_of_mem_utf8EncodeChar hm (UInt8.lt_iff_toNat_lt.mpr (hv ▸ hd))
    exact h <| Char.ext <| UInt32.toNat_inj.mp (this.trans hv)
  exact passes_of_forall fun b hm => ⟨hne (by decide) hq b hm, hne (by decide) hb b hm⟩

-- The content of a string literal holds no closing quotation mark.
theorem passes_of_unescape (h : unescape content = some chars) : Passes content := by
  induction hl : content.length using Nat.strong_induction_on generalizing content chars
  case h n hi =>
    cases content
    case nil => exact .nil
    case cons b rest =>
      have hrest {k : ℕ} {f : List Char → List Char} (h : f <$> unescape (rest.drop k) = some chars) :
          Passes (rest.drop k) := by
        obtain ⟨chars', hc, _⟩ := Option.map_eq_some_iff.mp h
        exact hi (rest.drop k).length (by simp [← hl]) hc rfl
      rw [unescape] at h
      split at h
      case isTrue hb =>
        subst hb
        split at h
        case h_1      => contradiction
        case h_2 he   =>
          obtain ⟨chunk, hc, hp⟩ := exists_escaped he
          exact hc ▸ hp.append (hrest h)
      case isFalse hb =>
        split at h
        case isTrue     => contradiction
        case isFalse hq =>
          obtain ⟨_, hq⟩ := not_or.mp hq
          split at h
          case h_1         => contradiction
          case h_2 c hf    =>
            obtain ⟨hm, he⟩ := Utf8.append_drop_of_front? hf
            have hne {d : Char} (hd : d.val.toNat < 0x80) (h : b ≠ byte d) : c ≠ d := by
              rintro rfl
              rw [Utf8.utf8EncodeChar_byte hd, List.mem_singleton] at hm
              exact h hm
            exact he ▸ (passes_utf8EncodeChar (hne (by decide) hq) (hne (by decide) hb)).append (hrest h)

theorem content_unique (h : unescape content = some chars) (h' : unescape content' = some chars')
    (he : quote content ++ rest = quote content' ++ rest') :
    chars = chars' ∧ content = content' ∧ rest = rest' := by
  have he : content ++ byte '"' :: rest = content' ++ byte '"' :: rest' := by simpa [quote] using he
  have hu := congrArg untilQuote he
  have hq (rest : Bytes) : untilQuote (byte '"' :: rest) = [] := by
    rw [untilQuote.eq_def]
    rfl
  rw [passes_of_unescape h, passes_of_unescape h', hq, hq, List.append_nil, List.append_nil] at hu
  subst hu
  exact ⟨Option.some.inj <| h.symm.trans h', rfl, by simpa using he⟩

end

-- What follows a value inside of a document or after it.
def Stops (rest : Bytes) : Prop :=
  ∀ b ∈ rest.head?, b ∈ ascii ",]\x7d\n"

def isNumberByte (b : UInt8) : Bool :=
  (byte '0' ≤ b && b ≤ byte '9') || (ascii "+-.eE").contains b

-- The kind of a value, and the one that the first byte of a text tells.
def kind : Json → ℕ
  | null       => 0
  | bool true  => 1
  | bool false => 2
  | string _   => 3
  | array _    => 4
  | object _   => 5
  | number _   => 6

def kindOf (b : UInt8) : ℕ :=
  (ascii "ntf\"[\x7b").idxOf b

section

variable {value value' : Json} {text text' rest rest' : Bytes} {b : UInt8}

theorem kindOf_number (h : b = byte '-' ∨ IsDigit b) : kindOf b = 6 ∧ b ≠ byte ']' := by
  have ho : ∀ b ∈ ascii "ntf\"[\x7b]", b ≠ byte '-' ∧ ¬(byte '0' ≤ b ∧ b ≤ byte '9') := by decide +kernel
  have hn : b ∉ ascii "ntf\"[\x7b]" := fun hm => h.elim (ho b hm).left (ho b hm).right
  have hs : ∀ b ∈ ascii "ntf\"[\x7b", b ∈ ascii "ntf\"[\x7b]" := by decide +kernel
  refine ⟨List.idxOf_of_notMem fun hm => hn (hs b hm), ?_⟩
  rintro rfl
  exact hn (by decide +kernel)

theorem isNumberByte_of_isDigit (h : IsDigit b) : isNumberByte b := by
  have : byte '0' ≤ b ∧ b ≤ byte '9' := h
  simp [isNumberByte, this]

theorem IsNumber.all (h : IsNumber text) : ∀ b ∈ text, isNumberByte b := by
  have hd {digits : Bytes} (h : ∀ b ∈ digits, IsDigit b) : ∀ b ∈ digits, isNumberByte b :=
    fun b hb => isNumberByte_of_isDigit (h b hb)
  have hsign : ∀ sign ∈ [[], ascii "+", ascii "-"], ∀ b ∈ sign, isNumberByte b := by decide +kernel
  have hexp : ∀ b ∈ ascii "eE", isNumberByte b := by decide +kernel
  obtain ⟨hs, hi, hf, he⟩ := h
  simp only [List.forall_mem_append]
  refine ⟨⟨⟨hsign _ ?_, ?_⟩, ?_⟩, ?_⟩
  · simp only [List.mem_cons, List.not_mem_nil, or_false] at hs ⊢
    exact hs.imp_right .inr
  · cases hi
    case zero            => decide +kernel
    case digits hb _ hds => exact List.forall_mem_cons.mpr ⟨isNumberByte_of_isDigit hb, hd hds⟩
  · cases hf
    case none          => simp
    case digits _ hds  => exact List.forall_mem_cons.mpr ⟨by decide +kernel, hd hds⟩
  · cases he
    case none                    => simp
    case digits hm hms _ hds     =>
      rw [List.forall_mem_append, List.forall_mem_cons]
      exact ⟨⟨hexp _ hm, hsign _ hms⟩, hd hds⟩

theorem IsNumber.exists_cons (h : IsNumber text) : ∃ b tail, text = b :: tail ∧ (b = byte '-' ∨ IsDigit b) := by
  have hz : IsDigit (byte '0') := ⟨le_rfl, by decide⟩
  obtain ⟨hs, hi, hf, he⟩ := h
  simp only [List.mem_cons, List.not_mem_nil, or_false] at hs
  rcases hs with rfl | rfl
  case inl =>
    cases hi
    case zero          => exact ⟨_, _, rfl, .inr hz⟩
    case digits hb _ _ => exact ⟨_, _, rfl, .inr hb⟩
  case inr => exact ⟨_, _, rfl, .inl rfl⟩

-- The first byte of a text tells the kind of the value and is no closing bracket.
theorem Text.exists_cons (h : Text value text) :
    ∃ b tail, text = b :: tail ∧ kindOf b = kind value ∧ b ≠ byte ']' := by
  cases h
  case number hn =>
    have ⟨b, tail, he, hb⟩ := hn.exists_cons
    exact ⟨b, tail, he, kindOf_number hb⟩
  all_goals exact ⟨_, _, rfl, rfl, by decide⟩

theorem number_unique (h : IsNumber text) (h' : IsNumber text') (hr : Stops rest) (hr' : Stops rest')
    (he : text ++ rest = text' ++ rest') : text = text' ∧ rest = rest' := by
  have hn : ∀ b ∈ ascii ",]\x7d\n", isNumberByte b = false := by decide +kernel
  exact List.append_inj_of_stop h.all (fun b hb => hn b (hr b hb)) h'.all (fun b hb => hn b (hr' b hb)) he

-- The first text of a list, and the others with the commas in front of them.
theorem intercalate_eq (text : Bytes) (texts : List Bytes) :
    [byte ','].intercalate (text :: texts) = text ++ texts.flatMap (byte ',' :: ·) := by
  induction texts generalizing text
  case nil             => simp
  case cons next _ hi  => rw [List.intercalate_cons_cons, hi]; simp

end

-- A text by which a part of a document can be told, whatever follows it there.
def Tells {α : Type*} (R : α → Bytes → Prop) (text : Bytes) : Prop :=
  ∀ item item' text' rest rest', R item text → R item' text' → Stops rest → Stops rest' →
    text ++ rest = text' ++ rest' → item = item' ∧ text = text' ∧ rest = rest'

section

variable {α : Type*} {R : α → Bytes → Prop} {items items' : List α} {texts texts' : List Bytes} {close : UInt8}
  {rest rest' : Bytes}

theorem stops_flatMap (hc : close ∈ ascii ",]\x7d\n") : Stops (texts.flatMap (byte ',' :: ·) ++ close :: rest) := by
  cases texts
  case nil  => simpa [Stops] using hc
  case cons =>
    have hm : byte ',' ∈ ascii ",]\x7d\n" := by decide +kernel
    simpa [Stops] using hm

theorem flatMap_unique (hc : close ∈ ascii ",]\x7d\n") (hn : close ≠ byte ',') (ht : ∀ text ∈ texts, Tells R text)
    (h : List.Forall₂ R items texts) (h' : List.Forall₂ R items' texts')
    (he : texts.flatMap (byte ',' :: ·) ++ close :: rest = texts'.flatMap (byte ',' :: ·) ++ close :: rest') :
    items = items' ∧ texts = texts' ∧ rest = rest' := by
  induction h generalizing items' texts'
  case nil =>
    cases h'
    case nil  => exact ⟨rfl, rfl, by simpa using he⟩
    case cons => exact absurd (List.cons.inj he).left hn
  case cons item text items texts hr h hi =>
    cases h'
    case nil                                  => exact absurd (List.cons.inj he).left.symm hn
    case cons item' text' items' texts' hr' h' =>
      simp only [List.flatMap_cons, List.cons_append, List.append_assoc, List.cons.injEq, true_and] at he
      have ⟨hf, ht⟩ := List.forall_mem_cons.mp ht
      have ⟨hitem, htext, he⟩ := hf _ _ _ _ _ hr hr' (stops_flatMap hc) (stops_flatMap hc) he
      have ⟨hitems, htexts, hrest⟩ := hi ht h' he
      exact ⟨hitem ▸ hitems ▸ rfl, htext ▸ htexts ▸ rfl, hrest⟩

-- The first byte of an item is never the one that ends the list.
theorem intercalate_unique (hc : close ∈ ascii ",]\x7d\n") (hn : close ≠ byte ',')
    (ho : ∀ item text, R item text → ∃ b tail, text = b :: tail ∧ b ≠ close)
    (ht : ∀ text ∈ texts, Tells R text) (h : List.Forall₂ R items texts) (h' : List.Forall₂ R items' texts')
    (he : [byte ','].intercalate texts ++ close :: rest = [byte ','].intercalate texts' ++ close :: rest') :
    items = items' ∧ texts = texts' ∧ rest = rest' := by
  cases h
  case nil =>
    cases h'
    case nil            => exact ⟨rfl, rfl, by simpa using he⟩
    case cons hr' _     =>
      have ⟨b, tail, hb, hne⟩ := ho _ _ hr'
      rw [intercalate_eq, hb] at he
      exact absurd (List.cons.inj he).left.symm hne
  case cons item text items texts hr h =>
    cases h'
    case nil =>
      have ⟨b, tail, hb, hne⟩ := ho _ _ hr
      rw [intercalate_eq, hb] at he
      exact absurd (List.cons.inj he).left hne
    case cons item' text' items' texts' hr' h' =>
      rw [intercalate_eq, intercalate_eq, List.append_assoc, List.append_assoc] at he
      have ⟨hf, ht⟩ := List.forall_mem_cons.mp ht
      have ⟨hitem, htext, he⟩ := hf _ _ _ _ _ hr hr' (stops_flatMap hc) (stops_flatMap hc) he
      have ⟨hitems, htexts, hrest⟩ := flatMap_unique hc hn ht h h' he
      exact ⟨hitem ▸ hitems ▸ rfl, htext ▸ htexts ▸ rfl, hrest⟩

end

section

variable {value value' : Json} {text text' : Bytes} {texts : List Bytes}

theorem length_le_intercalate (h : text ∈ texts) : text.length ≤ ([byte ','].intercalate texts).length := by
  induction texts
  case nil => contradiction
  case cons head texts hi =>
    cases texts
    case nil       => simpa using congrArg List.length (List.mem_singleton.mp h) |>.le
    case cons next texts =>
      rw [List.intercalate_cons_cons, List.length_append, List.length_append]
      cases List.mem_cons.mp h
      case inl h => rw [h]; omega
      case inr h => have := hi h; omega

theorem Tells.member (h : ∀ part : Bytes, part.length < text.length → Tells Text part) : Tells Member text := by
  intro item item' text' rest rest' hm hm' hr hr' he
  cases hm
  case intro hn ht =>
    cases hm'
    case intro hn' ht' =>
      rw [List.append_assoc, List.append_assoc] at he
      have ⟨hchars, hname, he⟩ := content_unique hn hn' he
      have ⟨hvalue, htext, hrest⟩ := h _ (by simp [quote]; omega) _ _ _ _ _ ht ht' hr hr' (List.cons.inj he).right
      exact ⟨by rw [hchars, hvalue], by rw [hname, htext], hrest⟩

-- Every value is told by its text. The parts of a value have shorter texts.
theorem tells_text (text : Bytes) : Tells Text text := by
  induction hl : text.length using Nat.strong_induction_on generalizing text
  case h n hi =>
    subst hl
    replace hi : ∀ part : Bytes, part.length < text.length → Tells Text part := fun part hp => hi _ hp part rfl
    intro value value' text' rest rest' h h' hr hr' he
    have hk : kind value = kind value' := by
      obtain ⟨b, tail, hb, hv, _⟩ := h.exists_cons
      obtain ⟨b', tail', hb', hv', _⟩ := h'.exists_cons
      rw [hb, hb'] at he
      rw [← hv, ← hv', (List.cons.inj he).left]
    have hbrackets : byte ']' ∈ ascii ",]\x7d\n" ∧ byte '\x7d' ∈ ascii ",]\x7d\n" := by decide +kernel
    cases h <;> cases h' <;> simp [kind] at hk
    case null.null   => exact ⟨rfl, rfl, List.append_cancel_left he⟩
    case true.true   => exact ⟨rfl, rfl, List.append_cancel_left he⟩
    case false.false => exact ⟨rfl, rfl, List.append_cancel_left he⟩
    case number.number hn hn' =>
      have ⟨ht, hrest⟩ := number_unique hn hn' hr hr' he
      exact ⟨congrArg number ht, ht, hrest⟩
    case string.string hc _ _ hc' =>
      have ⟨hs, ht, hrest⟩ := content_unique hc hc' he
      exact ⟨congrArg string hs, congrArg quote ht, hrest⟩
    case array.array items texts hf items' texts' hf' =>
      have ho : ∀ item text, Text item text → ∃ b tail, text = b :: tail ∧ b ≠ byte ']' := fun item text h => by
        obtain ⟨b, tail, hb, _, hne⟩ := h.exists_cons
        exact ⟨b, tail, hb, hne⟩
      have hp : ∀ part ∈ texts, Tells Text part := fun part hm =>
        hi part <| by have := length_le_intercalate hm; simp; omega
      have he : [byte ','].intercalate texts ++ byte ']' :: rest =
          [byte ','].intercalate texts' ++ byte ']' :: rest' := by simpa using he
      have ⟨hitems, ht, hrest⟩ := intercalate_unique hbrackets.left (by decide) ho hp hf hf' he
      exact ⟨congrArg array hitems, by rw [ht], hrest⟩
    case object.object members texts hf members' texts' hf' =>
      have ho : ∀ item text, Member item text → ∃ b tail, text = b :: tail ∧ b ≠ byte '\x7d' := fun item text h => by
        cases h
        exact ⟨_, _, rfl, by decide⟩
      have hp : ∀ part ∈ texts, Tells Member part := fun part hm =>
        .member fun text hl => hi text <| by have := length_le_intercalate hm; simp; omega
      have he : [byte ','].intercalate texts ++ byte '\x7d' :: rest =
          [byte ','].intercalate texts' ++ byte '\x7d' :: rest' := by simpa using he
      have ⟨hmembers, ht, hrest⟩ := intercalate_unique hbrackets.right (by decide) ho hp hf hf' he
      exact ⟨congrArg object hmembers, by rw [ht], hrest⟩

-- No text stands for two values.
theorem Text.unique (h : Text value text) (h' : Text value' text) : value = value' :=
  (tells_text text _ _ _ [] [] h h' (by simp [Stops]) (by simp [Stops]) rfl).left

end

end Json
