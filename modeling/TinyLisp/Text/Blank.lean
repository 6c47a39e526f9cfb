/-!
Characters by the part they play between tokens: blanks separate tokens, delimiters end a symbol.
-/

namespace TinyLisp.Text

/-- The code points with the Unicode property White_Space. -/
def blankPoints : List Nat :=
  [0x09, 0x0A, 0x0B, 0x0C, 0x0D, 0x20, 0x85, 0xA0, 0x1680,
    0x2000, 0x2001, 0x2002, 0x2003, 0x2004, 0x2005, 0x2006, 0x2007, 0x2008, 0x2009, 0x200A,
    0x2028, 0x2029, 0x202F, 0x205F, 0x3000]

/-- A blank is a character with the Unicode property White_Space. -/
def isBlank (c : Char) : Bool :=
  blankPoints.contains c.toNat

/-- A delimiter ends a symbol: it is a blank or one of `# ( ) " ;`. -/
def isDelimiter (c : Char) : Bool :=
  c == '#' || c == '(' || c == ')' || c == '"' || c == ';' || isBlank c

/-- Every ASCII whitespace character is a blank. -/
theorem isBlank_of_isWhitespace {c : Char} (h : c.isWhitespace = true) : isBlank c = true := by
  simp only [Char.isWhitespace, Bool.or_eq_true, decide_eq_true_eq] at h
  rcases h with ((rfl | rfl) | rfl) | rfl <;> decide

/-- Every blank is a delimiter. -/
theorem isDelimiter_of_isBlank {c : Char} (h : isBlank c = true) : isDelimiter c = true := by
  simp [isDelimiter, h]

/-- No digit is a blank. -/
theorem isBlank_eq_false_of_isDigit {c : Char} (h : c.isDigit = true) : isBlank c = false := by
  have hlow : 48 ≤ c.toNat := by
    simp only [Char.isDigit, Bool.and_eq_true, decide_eq_true_eq, ge_iff_le] at h
    exact h.1
  have hhigh : c.toNat ≤ 57 := by
    simp only [Char.isDigit, Bool.and_eq_true, decide_eq_true_eq, ge_iff_le] at h
    exact h.2
  simp only [isBlank, blankPoints, List.contains_eq_mem, decide_eq_false_iff_not, List.mem_cons,
    List.not_mem_nil, or_false]
  omega

example : blankPoints.length = 25 := by decide

example : isBlank '\u3000' = true ∧ isBlank 'x' = false ∧ isDelimiter '.' = false := by decide

end TinyLisp.Text
