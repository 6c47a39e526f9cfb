import TinyLisp.Counted
import TinyLisp.Error

/-!
A source of characters with one character of lookahead.  Bytes are taken a line at a time, and
only when the line before is used up, so nothing beyond the line in use is ever examined.
-/

namespace TinyLisp

/-- What is left of the line in use, the bytes not yet taken, and whether the end was met. -/
structure CharStream where
  line : Counted Char
  unread : Counted UInt8
  exhausted : Bool
  deriving DecidableEq, Repr

/-- An action on a stream that may fail; a failure keeps what was consumed before it. -/
abbrev Scan := ExceptT Error (StateM CharStream)

/-- The byte that ends a line. -/
def newlineByte : UInt8 := 10

/-- The first line, its newline included, and the bytes after it. -/
def splitLine (bytes : List UInt8) : List UInt8 × List UInt8 :=
  let rest := bytes.dropWhile (· != newlineByte)
  (bytes.takeWhile (· != newlineByte) ++ rest.take 1, rest.drop 1)

theorem splitLine_append (bytes : List UInt8) :
    (splitLine bytes).1 ++ (splitLine bytes).2 = bytes := by
  rw [splitLine, List.append_assoc, List.take_append_drop, List.takeWhile_append_dropWhile]

/-- The first line of counted bytes and the counted bytes after it. -/
def takeLine (bytes : Counted UInt8) : List UInt8 × Counted UInt8 :=
  let parts := splitLine bytes.toList
  (parts.1, ⟨parts.2, bytes.length - parts.1.length, by
    have hsum := congrArg List.length (splitLine_append bytes.toList)
    rw [List.length_append] at hsum
    simp only [parts]
    rw [bytes.length_eq]
    omega⟩)

/-- The characters that bytes encode; `none` when they are not valid UTF-8. -/
def decode? (bytes : List UInt8) : Option (List Char) :=
  (String.fromUTF8? ⟨bytes.toArray⟩).map String.toList

/-- The bytes that encode a text. -/
def encode (text : String) : List UInt8 :=
  text.toUTF8.data.toList

namespace CharStream

/-- A stream at the start of some bytes. -/
def ofBytes (bytes : List UInt8) : CharStream :=
  ⟨.ofList [], .ofList bytes, false⟩

/-- A stream at the start of a text. -/
def ofText (text : String) : CharStream :=
  ofBytes (encode text)

/-- The characters and bytes still to come, an upper bound on the characters still to come. -/
def size (s : CharStream) : Nat :=
  s.line.length + s.unread.length

/-- Takes the next line when the one in use is used up.  A line that is not valid UTF-8 is
dropped, and meeting the end once is meeting it for good. -/
def fill : Scan Unit := do
  let s ← get
  if s.line.toList.isEmpty && !s.exhausted then
    if s.unread.toList.isEmpty then
      set { s with exhausted := true }
    else
      let (taken, rest) := takeLine s.unread
      match decode? taken with
      | some line => set { s with line := .ofList line, unread := rest }
      | none =>
          set { s with unread := rest }
          throw (.io .invalidText)

/-- The next character, which stays; `none` at the end. -/
def peek : Scan (Option Char) := do
  fill
  return (← get).line.toList.head?

/-- Takes the next character; `none` at the end. -/
def next : Scan (Option Char) := do
  let c ← peek
  modify fun s => { s with line := s.line.tail }
  return c

/-- Drops what is left of the line in use. -/
def skipLine (s : CharStream) : CharStream :=
  { s with line := .ofList [] }

end CharStream

/-- Only the empty input has an empty first line. -/
theorem splitLine_fst_eq_nil_iff {bytes : List UInt8} :
    (splitLine bytes).1 = [] ↔ bytes = [] := by
  cases bytes with
  | nil => simp [splitLine]
  | cons b rest =>
      by_cases hb : b = newlineByte <;> simp [splitLine, hb]

/-- Taking a line leaves fewer bytes. -/
theorem length_splitLine_snd_lt {bytes : List UInt8} (h : bytes ≠ []) :
    (splitLine bytes).2.length < bytes.length := by
  have hsum := congrArg List.length (splitLine_append bytes)
  have hpos : (splitLine bytes).1.length ≠ 0 := by
    rw [Ne, List.length_eq_zero_iff, splitLine_fst_eq_nil_iff]
    exact h
  rw [List.length_append] at hsum
  omega

/-- A text is what its bytes encode. -/
theorem decode?_encode (text : String) : decode? (encode text) = some text.toList := by
  have harray : (⟨(encode text).toArray⟩ : ByteArray) = text.toUTF8 := by
    simp [encode]
  have hvalid : text.toUTF8.IsValidUTF8 := text.isValidUTF8
  rw [decode?, harray]
  simp only [String.fromUTF8?, hvalid, dite_true]
  rfl

example : splitLine [97, 10, 98] = ([97, 10], [98]) := by decide

end TinyLisp
