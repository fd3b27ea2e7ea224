import Gol.LibraryLoops
import Gol.WorkflowBend

/-! The guard of a Bend source's `main` (`workflow-bend/src/boundary.rs`): a scanner that moves over the source's
bytes and slices its text. A slice that does not start at a character panics, and so do an index out of bounds and an
overflow. -/

namespace Gol
open Library Fallible

namespace Bend

/-! ### A source's text and bytes -/

/-- A text's bytes. -/
def encode (text : List Char) : Bytes := text.flatMap String.utf8EncodeChar

/-- The text from a byte on, if a character starts there. -/
def suffixAt : List Char → Nat → Option (List Char)
  | text, 0 => some text
  | [], _ + 1 => none
  | c :: rest, i + 1 => if c.utf8Size ≤ i + 1 then suffixAt rest (i + 1 - c.utf8Size) else none

/-- The text of this many bytes at the front, if a character ends there. -/
def frontOf : List Char → Nat → Option (List Char)
  | _, 0 => some []
  | [], _ + 1 => none
  | c :: rest, i + 1 =>
      if c.utf8Size ≤ i + 1 then (frontOf rest (i + 1 - c.utf8Size)).map fun front => c :: front else none

/-- How a scan ends without an answer. Running out of turns is a loop that goes on. -/
inductive Halt where
  | refused (error : FrontendError)
  | panicked
  | endless
  deriving DecidableEq

/-- A scan of the source, whose state is the place it has reached (`BendScan::i`). -/
abbrev Scan (α : Type) : Type := Fallible Nat Halt α

def mainMustBeString : FrontendError := .encoding "main must return String; IO is not executed"

def refuse {α : Type} : Scan α := throw (.refused mainMustBeString)

def isNameChar (c : Char) : Bool := c.isAlphanum || c == '_' || c == '.'

def isNameStart (c : Char) : Bool := c.isAlpha || c == '_'

def isDigitByte (byte : UInt8) : Bool := 48 ≤ byte && byte ≤ 57

def isHexByte (byte : UInt8) : Bool := isDigitByte byte || (97 ≤ byte && byte ≤ 102) || (65 ≤ byte && byte ≤ 70)

/-- How many bytes are whitespace and comments, where the scan may stand in a comment. -/
def blankBytes : Bool → Bytes → Nat
  | _, [] => 0
  | true, byte :: rest => 1 + blankBytes (byte != 10) rest
  | false, byte :: rest =>
      if byte = 32 ∨ byte = 10 ∨ byte = 13 ∨ byte = 9 then 1 + blankBytes false rest
      else if byte = 35 then 1 + blankBytes true rest
      else 0

namespace BendScan

variable (src : List Char)

/-- `&self.src[self.i..]` -/
def slice : Scan (List Char) := do
  match suffixAt src (← get) with
  | some rest => pure rest
  | none => throw .panicked

def advance (bytes : Nat) : Scan PUnit := modify fun i => i + bytes

/-- Whether the scan has reached the source's end. -/
def atEnd : Scan Bool := do
  pure (decide ((encode src).length ≤ (← get)))

def skip : Scan PUnit := modify fun i => i + blankBytes false ((encode src).drop i)

def atByte (byte : UInt8) : Scan Bool := do
  pure ((encode src)[← get]? == some byte)

/-- `word` starts here and is not the head of a longer name. -/
def atWord (word : String) : Scan Bool := do
  let rest ← slice src
  if word.toList.isPrefixOf rest then
    match suffixAt rest word.utf8ByteSize with
    | some after => pure !(after.head?.any isNameChar)
    | none => throw .panicked
  else pure false

/-- Where a number that starts at the byte `i` ends. -/
def numberEnd (bytes : Bytes) (i : Nat) : Option Nat :=
  let digits (start : Nat) := ((bytes.drop start).takeWhile isDigitByte).length
  let whole := i + digits i
  if whole = i then none
  else if bytes[whole]? = some 110 then some (whole + 1)
  else if bytes[whole]? = some 46 ∧ 0 < digits (whole + 1) then
    let fraction := whole + 1 + digits (whole + 1)
    if bytes[fraction]? = some 101 ∨ bytes[fraction]? = some 69 then
      let sign := if bytes[fraction + 1]? = some 43 ∨ bytes[fraction + 1]? = some 45 then 1 else 0
      let exponent := digits (fraction + 1 + sign)
      some (if 0 < exponent then fraction + 1 + sign + exponent else fraction)
    else some fraction
  else some whole

def skipNumber : Scan Bool := do
  match numberEnd (encode src) (← get) with
  | none => pure false
  | some after => do
      set after
      pure true

def takeText (text : String) : Scan Bool := do
  let rest ← slice src
  if text.toList.isPrefixOf rest then do
    advance text.utf8ByteSize
    pure true
  else pure false

def bumpChar : Scan PUnit := do
  match (← slice src).head? with
  | none => refuse
  | some c => advance c.utf8Size

def readName : Scan (Option (List Char)) := do
  match ← slice src with
  | [] => pure none
  | head :: chars =>
      if !isNameStart head then pure none
      else
        let size := head.utf8Size + ((chars.takeWhile isNameChar).map Char.utf8Size).sum
        match frontOf (head :: chars) size with
        | none => throw .panicked
        | some name => do
            advance size
            pure (some name)

def takeUnicodeEscape : Scan Bool := do
  let i ← get
  if (encode src).length < i then throw .panicked
  else
    let window := ((encode src).drop i).take 11
    let after := 2 + ((window.drop 2).takeWhile isHexByte).length
    if window.length < 4 ∨ ¬ (window[0]? = some 117 ∨ window[0]? = some 85) ∨ window[1]? ≠ some 123 then pure false
    else if after = 2 ∨ window.length ≤ after ∨ window[after]? ≠ some 125 then pure false
    else do
      advance (after + 1)
      pure true

def isEscaped (c : Char) : Bool := c ∈ ['n', 't', 'r', '0', '\\', '\'', '"']

def takeCharBody : Scan PUnit := do
  if ← atEnd src then refuse
  else if !(← atByte src 92) then bumpChar src
  else do
    advance 1
    if ← takeUnicodeEscape src then pure ⟨⟩
    else
      match (← slice src).head? with
      | none => refuse
      | some c => if isEscaped c then advance c.utf8Size else refuse

/-- One turn of the loop over a string's characters. -/
def stringTurn (_ : PUnit) : Scan (LoopTurn PUnit PUnit) := do
  if ← takeText src "\"" then pure (.done ⟨⟩)
  else if ← atEnd src then refuse
  else do
    takeCharBody src
    pure (.again ⟨⟩)

/-- As many turns as a loop over the source can take. -/
def turns : Nat := (encode src).length + 1

def skipString : Scan PUnit := do
  if ← takeText src "\"" then loop .endless (stringTurn src) (turns src) ⟨⟩
  else refuse

def skipCharLit : Scan PUnit := do
  if ← takeText src "'" then do
    takeCharBody src
    if ← takeText src "'" then pure ⟨⟩ else refuse
  else refuse

/-- One turn of the loop over a list that is `depth` lists deep. The depth is a `u32`. -/
def balancedTurn (depth : Nat) : Scan (LoopTurn Nat PUnit) := do
  if depth = 0 then pure (.done ⟨⟩)
  else do
    skip src
    if ← atEnd src then refuse
    else if ← atByte src 34 then do
      skipString src
      pure (.again depth)
    else if ← atByte src 39 then do
      skipCharLit src
      pure (.again depth)
    else
      match (encode src)[← get]? with
      | none => throw .panicked
      | some byte =>
          if byte = 40 then
            if depth + 1 < 2 ^ 32 then do
              advance 1
              pure (.again (depth + 1))
            else throw .panicked
          else if byte = 41 then do
            advance 1
            pure (.again (depth - 1))
          else do
            bumpChar src
            pure (.again depth)

def skipBalanced : Scan PUnit := loop .endless (balancedTurn src) (turns src) 1

def defNameIsMain : Scan Bool := do
  skip src
  let name ← readName src
  pure (name == some "main".toList)

def mainReturnsString : Scan Bool := do
  skip src
  if ← atByte src 63 then advance 1 else pure ⟨⟩
  skip src
  if ← takeText src "(" then do
    skipBalanced src
    skip src
    if ← takeText src "->" then do
      skip src
      if ← atWord src "String" then do
        advance "String".utf8ByteSize
        skip src
        takeText src ":"
      else pure false
    else pure false
  else pure false

/-- One turn of the loop over the source, after `mains` mains. -/
def mainTurn (mains : Nat) : Scan (LoopTurn Nat Nat) := do
  if ← atEnd src then pure (.done mains)
  else do
    skip src
    if ← atEnd src then pure (.done mains)
    else if ← atWord src "def" then do
      advance 3
      if ← defNameIsMain src then
        if ← mainReturnsString src then pure (.again (mains + 1)) else refuse
      else pure (.again mains)
    else if ← atByte src 34 then do
      skipString src
      pure (.again mains)
    else if ← atByte src 39 then do
      skipCharLit src
      pure (.again mains)
    else if (← readName src).isSome then pure (.again mains)
    else if ← skipNumber src then pure (.again mains)
    else do
      bumpChar src
      pure (.again mains)

end BendScan

open BendScan

def assertStringMain (src : List Char) : Except Halt Unit :=
  match ((loop .endless (mainTurn src) (turns src) 0).run.run 0).1 with
  | .error halt => .error halt
  | .ok mains => if mains ≠ 1 then .error (.refused (.encoding "needs one def main() -> String:")) else .ok ()

end Bend

end Gol
