import Howlinux.Library.Bytes

open Bytes

namespace Howlinux

def stopwords : List Bytes := [
  "a",       "an",      "and",      "are",      "be",
  "can",     "could",   "define",   "describe", "did",
  "do",      "does",    "explain",  "for",      "from",
  "help",    "how",     "i",        "in",       "is",
  "it",      "me",      "mean",     "means",    "my",
  "of",      "on",      "or",       "please",   "should",
  "show",    "that",    "the",      "this",     "to",
  "was",     "were",    "what",     "why",      "with",
  "would"].map ascii

def isAsciiDigit (value : UInt8) : Bool :=
  byte '0' ≤ value && value ≤ byte '9'

def isAsciiLetter (value : UInt8) : Bool :=
  (byte 'a' ≤ value && value ≤ byte 'z') || (byte 'A' ≤ value && value ≤ byte 'Z')

-- Bytes of a UTF-8 sequence count as word bytes and are copied verbatim.
def isWordByte (value : UInt8) : Bool :=
  isAsciiLetter value || isAsciiDigit value || 0x80 ≤ value

def asciiLower (value : UInt8) : UInt8 :=
  if byte 'A' ≤ value && value ≤ byte 'Z' then value + (byte 'a' - byte 'A') else value

def isChunkByte (value : UInt8) : Bool :=
  isWordByte value || value == byte '.' || value == byte '-' || value == byte '_'

def isAllDigits (value : Bytes) : Bool :=
  !value.isEmpty && value.all isAsciiDigit

def isFlagChunk (chunk : Bytes) : Bool :=
  if chunk.length < 2 || chunk.head? != some (byte '-') then
    false
  else
    let prefixLength := if chunk[1]? == some (byte '-') then 2 else 1
    if chunk.length ≤ prefixLength || (prefixLength == 2 && chunk[2]? == some (byte '-')) then
      false
    else
      (chunk.drop prefixLength).any isWordByte

def flush (token : Bytes) : List Bytes :=
  if token.isEmpty then [] else [token]

-- A dot stays inside a token only between two word bytes.
def appendDotAware (token : Bytes) : Bytes → List Bytes
  | [] => flush token
  | value :: rest =>
    if isWordByte value then
      appendDotAware (token ++ [value]) rest
    else if value == byte '.' && !token.isEmpty && rest.head?.any isWordByte then
      appendDotAware (token ++ [byte '.']) rest
    else
      flush token ++ appendDotAware [] rest

def popTrailingDots (flag : Bytes) : Bytes :=
  flag.rdropWhile (· == byte '.')

def isWordBoundary (value : UInt8) : Bool :=
  value == byte '-' || value == byte '_'

def appendChunk (chunk : Bytes) : List Bytes :=
  if chunk.isEmpty then
    []
  else if isFlagChunk chunk then
    flush (popTrailingDots chunk)
  else
    (chunk.splitOnP isWordBoundary).flatMap (appendDotAware [])

def isRedirection (value : UInt8) : Bool :=
  value == byte '>' || value == byte '<'

-- Redirections such as `2>` and `10>>` are tokens: the operator run that is glued to the digits.
def redirectionRun (chunk : Bytes) : Bytes → Bytes
  | []                => []
  | direction :: rest =>
    if isAllDigits chunk && isRedirection direction then
      direction :: rest.takeWhile (· == direction)
    else
      []

-- The argument is what is left of the input after `index`.
def lexicalTokens : Bytes → List Bytes
  | [] => []
  | value :: rest =>
    if !isChunkByte value then
      lexicalTokens rest
    else
      let chunk := (value :: rest.takeWhile isChunkByte).map asciiLower
      let rest' := rest.dropWhile isChunkByte
      let run   := redirectionRun chunk rest'
      if run.isEmpty then
        appendChunk chunk ++ lexicalTokens rest'
      else
        (chunk ++ run) :: lexicalTokens (rest'.drop run.length)
termination_by input => input.length
decreasing_by
  all_goals
    have := (List.dropWhile_sublist (p := isChunkByte) (l := rest)).length_le
    simp only [List.length_cons, List.length_drop]
    omega

def isStopword (token : Bytes) : Bool :=
  token ∈ stopwords

-- `seen` holds the tokens already inserted into the set of the source's loop.
def tokenizeLoop (removeStopwords deduplicate : Bool) (seen : List Bytes) : List Bytes → List Bytes
  | [] => []
  | token :: rest =>
    if removeStopwords && isStopword token then
      tokenizeLoop removeStopwords deduplicate seen rest
    else if deduplicate && seen.contains token then
      tokenizeLoop removeStopwords deduplicate seen rest
    else
      token :: tokenizeLoop removeStopwords deduplicate (token :: seen) rest

def tokenize (input : Bytes) (removeStopwords deduplicate : Bool := true) : List Bytes :=
  tokenizeLoop removeStopwords deduplicate [] (lexicalTokens input)

def joinTokens (tokens : List Bytes) : Bytes :=
  tokens.foldl (fun output token =>
    (if output.isEmpty then output else output ++ [byte ' ']) ++ token) []

end Howlinux
