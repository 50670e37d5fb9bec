import Howlinux.Query.Theorems.Words
import Howlinux.Query.Processor

open Bytes List

namespace Howlinux

section

variable {value direction : UInt8}

theorem isRedirection_asciiLower : isRedirection (asciiLower value) = isRedirection value := by
  revert value; decide +kernel

theorem asciiLower_beq (h : isRedirection direction) : (asciiLower value == direction) = (value == direction) := by
  have hd := (asciiLower_of_isRedirection h).left
  rw [Bool.eq_iff_iff, beq_iff_eq, beq_iff_eq]
  constructor
  case mpr => exact (· ▸ hd)
  case mp  =>
    intro he
    have hv : isRedirection value := isRedirection_asciiLower ▸ he ▸ h
    exact (asciiLower_of_isRedirection hv).left.symm.trans he

end

section

variable (input : Bytes)

theorem redirectionRun_map_asciiLower (chunk : Bytes) :
    redirectionRun chunk (input.map asciiLower) = redirectionRun chunk input := by
  cases input
  case nil => rfl
  case cons direction rest =>
    simp only [map_cons, redirectionRun, isRedirection_asciiLower]
    split
    case isFalse => rfl
    case isTrue h =>
      have hr : isRedirection direction := (Bool.and_eq_true _ _ ▸ h).right
      have hd := (asciiLower_of_isRedirection hr).left
      have hc : (· == direction) ∘ asciiLower = (· == direction) := funext fun _ => asciiLower_beq hr
      rw [hd, takeWhile_map, hc, map_asciiLower fun b hb => ?_]
      have he : b = direction := by simpa using mem_takeWhile_imp hb
      rw [he, hd]

-- The scanner writes every token in lower case.
theorem lexicalTokens_map_asciiLower : lexicalTokens (input.map asciiLower) = lexicalTokens input := by
  have hc : isChunkByte ∘ asciiLower = isChunkByte := funext isChunkByte_asciiLower
  fun_induction lexicalTokens input
  case case1 => simp [lexicalTokens]
  case case2 hv hi =>
    rw [map_cons, lexicalTokens, isChunkByte_asciiLower, if_pos hv, hi]
  case case3 value rest hv chunk rest' run hr hi =>
    have he : ((value :: takeWhile isChunkByte rest).map asciiLower).map asciiLower = chunk := by simp [chunk]
    rw [map_cons, lexicalTokens, isChunkByte_asciiLower, if_neg hv]
    simp only [takeWhile_map, dropWhile_map, hc]
    rw [← map_cons, he, redirectionRun_map_asciiLower, if_pos hr, hi]
  case case4 value rest hv chunk rest' run hr hi =>
    have he : ((value :: takeWhile isChunkByte rest).map asciiLower).map asciiLower = chunk := by simp [chunk]
    rw [map_cons, lexicalTokens, isChunkByte_asciiLower, if_neg hv]
    simp only [takeWhile_map, dropWhile_map, hc]
    rw [← map_cons, he, redirectionRun_map_asciiLower, if_neg hr, ← map_drop, hi]

end

def QueryContext.spelled (query : QueryContext) (original : Bytes) : QueryContext :=
  { query with original }

-- Nothing but the tokens of a query is read.
theorem QueryProcessor.process_spelled (processor : QueryProcessor) {query query' : Bytes}
    (h : lexicalTokens query' = lexicalTokens query) :
    processor.process query' = (processor.process query).spelled query' := by
  unfold process tokenize
  rw [h]
  rfl

end Howlinux
