/-!
Decimal numerals: how an exact integer is written, and which texts denote one.  Main statements: the
digits written are those of positional notation, and reading them gives the number back.
-/

namespace TinyLisp.Numeral

/-- Powers are those of the core library, whatever else is imported. -/
local instance (priority := 2000) corePow : Pow Nat Nat := instPowNat

/-- The last `width` decimal digits of a number, leading zeros included. -/
def padded : (width n : Nat) → List Char
  | 0, _ => []
  | width + 1, n => padded width (n / 10) ++ [Nat.digitChar (n % 10)]

/-- The last `2 ^ level` decimal digits of a number in front of `k`.  The number is cut in halves, so
that few divisions are of large numbers. -/
def spread : (level n : Nat) → List Char → List Char
  | 0, n, k => Nat.digitChar (n % 10) :: k
  | level + 1, n, k =>
      let half : Nat := 10 ^ (2 ^ level : Nat)
      spread level (n / half) (spread level (n % half) k)

/-- The decimal digits of a natural number. -/
def digits (n : Nat) : List Char :=
  if n < 10 ^ (16 : Nat) then Nat.toDigits 10 n
  else (spread (n.log2.log2 + 1) n []).dropWhile (· == '0')

/-- The decimal digits of an integer, with a leading `-` when it is negative. -/
def decimal : Int → List Char
  | .ofNat n => digits n
  | .negSucc n => '-' :: digits (n + 1)

theorem padded_add (w v n : Nat) :
    padded (w + v) n = padded w (n / 10 ^ v) ++ padded v (n % 10 ^ v) := by
  induction v generalizing n with
  | zero => simp [padded]
  | succ v ih =>
      have hhigh : n / 10 / 10 ^ v = n / 10 ^ (v + 1) := by
        rw [Nat.div_div_eq_div_mul, Nat.pow_succ']
      have hmiddle : n % 10 ^ (v + 1) / 10 = n / 10 % 10 ^ v := by
        rw [Nat.pow_succ', Nat.mod_mul_right_div_self]
      have hlow : n % 10 ^ (v + 1) % 10 = n % 10 := by
        rw [Nat.pow_succ', Nat.mod_mul_right_mod]
      show padded (w + v) (n / 10) ++ [Nat.digitChar (n % 10)] =
        padded w (n / 10 ^ (v + 1)) ++
          (padded v (n % 10 ^ (v + 1) / 10) ++ [Nat.digitChar (n % 10 ^ (v + 1) % 10)])
      rw [ih, hhigh, hmiddle, hlow, List.append_assoc]

theorem spread_eq (level n : Nat) (k : List Char) :
    spread level n k = padded (2 ^ level) n ++ k := by
  induction level generalizing n k with
  | zero => simp [spread, padded]
  | succ level ih =>
      have hwidth : 2 ^ (level + 1) = 2 ^ level + 2 ^ level := by
        rw [Nat.pow_succ, Nat.mul_two]
      rw [spread, ih, ih, hwidth, padded_add, List.append_assoc]

theorem dropWhile_padded_zero (width : Nat) : (padded width 0).dropWhile (· == '0') = [] := by
  induction width with
  | zero => rfl
  | succ width ih =>
      have hdigit : Nat.digitChar (0 % 10) = '0' := rfl
      rw [padded, List.dropWhile_append, Nat.zero_div, ih, hdigit]
      rfl

/-- Without its leading zeros a long enough row of digits is the number in positional notation. -/
theorem dropWhile_padded {width n : Nat} (hpos : 0 < n) (hn : n < 10 ^ width) :
    (padded width n).dropWhile (· == '0') = Nat.toDigits 10 n := by
  induction width generalizing n with
  | zero =>
      rw [Nat.pow_zero] at hn
      omega
  | succ width ih =>
      rw [padded, List.dropWhile_append]
      by_cases hsmall : n < 10
      · have hzero : n / 10 = 0 := Nat.div_eq_of_lt hsmall
        have hdigit : (Nat.digitChar n == '0') = false := by
          rw [beq_eq_false_iff_ne, ne_eq, Nat.digitChar_eq_zero]
          omega
        rw [hzero, dropWhile_padded_zero, Nat.mod_eq_of_lt hsmall,
          Nat.toDigits_of_lt_base hsmall]
        simp [hdigit]
      · have hten : 10 ≤ n := Nat.le_of_not_lt hsmall
        have hrest : n / 10 < 10 ^ width := by
          rw [Nat.div_lt_iff_lt_mul (by decide), ← Nat.pow_succ]
          exact hn
        rw [ih (by omega) hrest, Nat.toDigits_of_base_le (by decide) hten]
        simp [Nat.toDigits_ne_nil]

/-- The digits written are those of positional notation. -/
theorem digits_eq (n : Nat) : digits n = Nat.toDigits 10 n := by
  unfold digits
  split
  · rfl
  · next hlarge =>
      have hlog : n.log2 + 1 ≤ 2 ^ (n.log2.log2 + 1) := Nat.lt_log2_self
      have hwide : n < 10 ^ 2 ^ (n.log2.log2 + 1) := by
        calc n < 2 ^ (n.log2 + 1) := Nat.lt_log2_self
          _ ≤ 2 ^ 2 ^ (n.log2.log2 + 1) := Nat.pow_le_pow_right (by decide) hlog
          _ ≤ 10 ^ 2 ^ (n.log2.log2 + 1) := Nat.pow_le_pow_left (by decide) _
      have hpos : 0 < n := by
        have hten : 0 < 10 ^ 16 := by decide
        omega
      rw [spread_eq, List.append_nil, dropWhile_padded hpos hwide]

/-- After its sign a numeral starts with a digit and goes on with digits and underscores,
which count for nothing. -/
def magnitude? : List Char → Option Nat
  | [] => none
  | c :: rest =>
      if c.isDigit && rest.all (fun d => d.isDigit || d == '_') then
        some (Nat.ofDigitChars 10 (c :: rest.filter Char.isDigit) 0)
      else
        none

/-- The integer that a numeral with at most one sign denotes; `none` for any other text. -/
def parse? : List Char → Option Int
  | '-' :: rest => (magnitude? rest).map fun n => -(n : Int)
  | '+' :: rest => (magnitude? rest).map Int.ofNat
  | rest => (magnitude? rest).map Int.ofNat

/-- A non-empty run of digits is always a numeral. -/
theorem magnitude?_of_digits {c : Char} {rest : List Char} (hc : c.isDigit = true)
    (hrest : ∀ d ∈ rest, d.isDigit = true) :
    magnitude? (c :: rest) = some (Nat.ofDigitChars 10 (c :: rest) 0) := by
  have hall : rest.all (fun d => d.isDigit || d == '_') = true := by
    rw [List.all_eq_true]
    intro d hd
    simp [hrest d hd]
  have hfilter : rest.filter Char.isDigit = rest := List.filter_eq_self.mpr hrest
  simp [magnitude?, hc, hall, hfilter]

/-- A run of digits denotes its value in base ten. -/
theorem parse?_of_digits {c : Char} {rest : List Char} (hc : c.isDigit = true)
    (hrest : ∀ d ∈ rest, d.isDigit = true) :
    parse? (c :: rest) = some (Int.ofNat (Nat.ofDigitChars 10 (c :: rest) 0)) := by
  have hminus : c ≠ '-' := by
    rintro rfl
    simp [Char.isDigit] at hc
  have hplus : c ≠ '+' := by
    rintro rfl
    simp [Char.isDigit] at hc
  have hparse : parse? (c :: rest) = (magnitude? (c :: rest)).map Int.ofNat := by
    unfold parse?
    split
    · next h => exact absurd (List.cons.inj h).1 hminus
    · next h => exact absurd (List.cons.inj h).1 hplus
    · rfl
  rw [hparse, magnitude?_of_digits hc hrest]
  rfl

/-- The digits of a natural number are digits. -/
theorem isDigit_of_mem_decimal {n : Nat} {c : Char} (h : c ∈ decimal (n : Int)) :
    c.isDigit = true := by
  have hmem : c ∈ Nat.toDigits 10 n := digits_eq n ▸ h
  exact Nat.isDigit_of_mem_toDigits (by decide) (by decide) hmem

/-- Reading the digits of a natural number gives it back. -/
theorem parse?_decimal (n : Nat) : parse? (decimal (n : Int)) = some (n : Int) := by
  have hdigits : ∀ c ∈ Nat.toDigits 10 n, c.isDigit = true := fun c h =>
    Nat.isDigit_of_mem_toDigits (by decide) (by decide) h
  show parse? (digits n) = some (n : Int)
  rw [digits_eq]
  cases htext : Nat.toDigits 10 n with
  | nil => exact absurd htext Nat.toDigits_ne_nil
  | cons c rest =>
      rw [htext] at hdigits
      rw [parse?_of_digits (hdigits c (by simp)) (fun d hd => hdigits d (by simp [hd])), ← htext,
        Nat.ofDigitChars_toDigits (by decide) (by decide)]
      rfl

example : spread 2 70605 ['x'] = "0605x".toList := by decide

example : parse? "-007".toList = some (-7) ∧ parse? "1_000".toList = some 1000 := by decide

example : parse? "-+7".toList = none ∧ parse? "_7".toList = none ∧ parse? [] = none := by decide

end TinyLisp.Numeral
