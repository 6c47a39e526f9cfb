import TinyLisp.CharStream
import TinyLisp.Datum
import TinyLisp.Numeral
import TinyLisp.Text.Blank

/-!
Reading data from characters: recursive descent over a stream, one top-level datum a call.

Every loop carries a bound that the characters still to come keep it from meeting; `readDatum`
computes the bound, and none of the functions that use it is called from outside.
-/

namespace TinyLisp.Reader

open CharStream Text

/-- Skips the rest of a comment, its newline included. -/
def skipComment : Nat → Scan Unit
  | 0 => throw (.malformed .unexpectedEnd)
  | bound + 1 => do
      match ← next with
      | none => return
      | some c => if c = '\n' then return else skipComment bound

/-- Skips blanks and comments and returns the character after them, which stays. -/
def skipAtmosphere : Nat → Scan (Option Char)
  | 0 => throw (.malformed .unexpectedEnd)
  | bound + 1 => do
      match ← peek with
      | none => return none
      | some c =>
          if c = ';' then
            skipComment bound
            skipAtmosphere bound
          else if isBlank c then
            let _ ← next
            skipAtmosphere bound
          else
            return some c

/-- Takes the longest run of characters that satisfy `p`; `taken` holds those taken so far, the
last one first. -/
def takeRun (p : Char → Bool) : Nat → List Char → Scan (List Char)
  | 0, _ => throw (.malformed .unexpectedEnd)
  | bound + 1, taken => do
      match ← peek with
      | none => return taken.reverse
      | some c =>
          if p c then
            let _ ← next
            takeRun p bound (c :: taken)
          else
            return taken.reverse

/-- A boolean, from its `#` on. -/
def boolean : Scan Datum := do
  let _ ← next
  match ← next with
  | none => throw (.malformed .endAfterHash)
  | some c =>
      if c = 't' then return .boolean true
      else if c = 'f' then return .boolean false
      else throw (.malformed (.badBoolean c))

/-- A number is the longest run of digits. -/
def number (bound : Nat) : Scan Datum := do
  let digits ← takeRun Char.isDigit bound []
  match Numeral.parse? digits with
  | some n => return .number n
  | none => throw (.malformed (.malformedNumber digits))

/-- The rest of a string: everything up to the next `"`, which is taken too. -/
def stringRest : Nat → List Char → Scan Datum
  | 0, _ => throw (.malformed .unexpectedEnd)
  | bound + 1, taken => do
      match ← next with
      | none => throw (.malformed .unterminatedString)
      | some c =>
          if c = '"' then return .string (String.ofList taken.reverse)
          else stringRest bound (c :: taken)

/-- A string, from its first `"` on.  No character in it has a special meaning. -/
def string (bound : Nat) : Scan Datum := do
  let _ ← next
  stringRest bound []

/-- A symbol is the longest run of characters that are no delimiters. -/
def symbol (bound : Nat) : Scan Datum := do
  let name ← takeRun (fun c => !isDelimiter c) bound []
  if name.isEmpty then throw (.malformed .emptySymbol)
  else return .symbol (String.ofList name)

/-- Takes the parenthesis that closes a dotted list whose last datum has been read. -/
def closeDotted (bound : Nat) (tail : Datum) : Scan Datum := do
  match ← skipAtmosphere bound with
  | none => throw (.malformed .unmatchedOpen)
  | some c =>
      if c = ')' then
        let _ ← next
        return tail
      else
        throw (.malformed .extraAfterDot)

mutual

/-- A datum, at its first character. -/
def datum : Nat → Scan Datum
  | 0 => throw (.malformed .unexpectedEnd)
  | bound + 1 => do
      match ← peek with
      | none => throw (.malformed .unexpectedEnd)
      | some c =>
          if c = '#' then boolean
          else if c = '"' then string bound
          else if c = '(' then
            let _ ← next
            items bound []
          else if c = ')' then throw (.malformed .unmatchedClose)
          else if c.isDigit then number bound
          else symbol bound

/-- The items of a list up to its closing parenthesis; `read` holds those read so far, the last
one first.  A lone `.` after the first item announces the rest of the last pair. -/
def items : Nat → List Datum → Scan Datum
  | 0, _ => throw (.malformed .unexpectedEnd)
  | bound + 1, read => do
      match ← skipAtmosphere bound with
      | none => throw (.malformed .unmatchedOpen)
      | some c =>
          if c = ')' then
            let _ ← next
            return .ofReversed read .nil
          else
            let d ← datum bound
            if d.isSymbol "." then
              if read.isEmpty then throw (.malformed .dotAtStart)
              else return .ofReversed read (← dottedTail bound)
            else
              items bound (d :: read)

/-- What follows the dot of a dotted list: one datum and the closing parenthesis. -/
def dottedTail : Nat → Scan Datum
  | 0 => throw (.malformed .unexpectedEnd)
  | bound + 1 => do
      match ← skipAtmosphere bound with
      | none => throw (.malformed .unmatchedOpen)
      | some c =>
          if c = ')' then throw (.malformed .missingAfterDot)
          else closeDotted bound (← datum bound)

end

/-- The next datum at top level, within a bound. -/
def topLevel (bound : Nat) : Scan (Option Datum) := do
  match ← skipAtmosphere bound with
  | none => return none
  | some c =>
      if c = ')' then
        let _ ← next
        throw (.malformed .unmatchedClose)
      else
        return some (← datum bound)

/-- The bound that reading from a stream needs: two for each character still to come, for a list
costs one to open and one for each item, and some to spare for meeting the end. -/
def boundFor (s : CharStream) : Nat :=
  2 * s.size + 4

/-- The next datum of a stream; `none` at its end. -/
def readDatum : Scan (Option Datum) := do
  topLevel (boundFor (← get))

/-- Reads data until the end or the first failure; `read` holds those read so far, the last one
first. -/
def readAllFrom : Nat → List Datum → Scan (List Datum)
  | 0, _ => throw (.malformed .unexpectedEnd)
  | bound + 1, read => do
      match ← readDatum with
      | none => return read.reverse
      | some d => readAllFrom bound (d :: read)

/-- The first datum of a text; `none` when it holds no datum. -/
def read (text : String) : Except Error (Option Datum) :=
  (readDatum.run (.ofText text)).1

/-- All data of a text. -/
def readAll (text : String) : Except Error (List Datum) :=
  let s := CharStream.ofText text
  ((readAllFrom (s.size + 1) []).run s).1

end TinyLisp.Reader
