import TinyLisp.Proofs.Text.Spelling
import TinyLisp.Reader

/-!
What the reader makes of its tokens, on streams of valid text: each function for a kind of token
takes exactly the characters of one token and leaves what follows.
-/

namespace TinyLisp.Reader

open CharStream Scan Text

variable {bound : Nat} {c : Char} {cs rest : List Char}

/-! ### Bounds -/

theorem readDatum_apply (s : CharStream) : readDatum s = topLevel (boundFor s) s := by
  rw [readDatum, bind_apply, get_apply]

/-- A call costs one of its bound: what holds within all that it passes on holds within all that it
is given. -/
theorem of_succ_le {P : Nat → Prop} {need : Nat} (h : ∀ bound, need ≤ bound → P (bound + 1))
    (bound : Nat) (hbound : need + 1 ≤ bound) : P bound := by
  obtain ⟨bound, rfl⟩ : ∃ b, bound = b + 1 := ⟨bound - 1, by omega⟩
  exact h bound (Nat.le_of_succ_le_succ hbound)

/-! ### Between tokens -/

/-- A text that goes on with a character that is neither blank nor the start of a comment. -/
def Begins (c : Char) (cs : List Char) : Prop :=
  cs.head? = some c ∧ isBlank c = false ∧ c ≠ ';'

theorem reads_skipAtmosphere (h : Begins c cs) (hbound : 1 ≤ bound) :
    Reads (skipAtmosphere bound) cs (some c) cs := by
  obtain ⟨bound, rfl⟩ : ∃ b, bound = b + 1 := ⟨bound - 1, by omega⟩
  obtain ⟨hhead, hblank, hcomment⟩ := h
  rw [skipAtmosphere]
  refine (reads_peek cs).bind ?_
  simp only [hhead, hcomment, hblank, Bool.false_eq_true, if_false]
  exact .pure (some c) cs

theorem reads_skipAtmosphere_space (h : Begins c cs) (hbound : 2 ≤ bound) :
    Reads (skipAtmosphere bound) (' ' :: cs) (some c) cs := by
  obtain ⟨bound, rfl⟩ : ∃ b, bound = b + 1 := ⟨bound - 1, by omega⟩
  rw [skipAtmosphere]
  refine (reads_peek (' ' :: cs)).bind ?_
  have hblank : isBlank ' ' = true := by decide
  simp only [List.head?_cons, hblank, if_true, if_neg (show ' ' ≠ ';' by decide)]
  exact (reads_next (' ' :: cs)).bind (reads_skipAtmosphere h (by omega))

/-! ### Tokens -/

/-- The longest run is the one that is followed by a character outside it, or by the end. -/
theorem reads_takeRun {p : Char → Bool} {run taken : List Char} (hrun : ∀ c ∈ run, p c = true)
    (hrest : ∀ c ∈ rest.head?, p c = false) (hbound : run.length < bound) :
    Reads (takeRun p bound taken) (run ++ rest) (taken.reverse ++ run) rest := by
  induction run generalizing bound taken with
  | nil =>
      obtain ⟨bound, rfl⟩ : ∃ b, bound = b + 1 := ⟨bound - 1, by omega⟩
      rw [takeRun, List.nil_append, List.append_nil]
      refine (reads_peek rest).bind ?_
      cases hhead : rest.head? with
      | none => exact .pure _ rest
      | some c =>
          simp only [hrest c hhead, Bool.false_eq_true, if_false]
          exact .pure _ rest
  | cons c run ih =>
      rw [List.length_cons] at hbound
      obtain ⟨bound, rfl⟩ : ∃ b, bound = b + 1 := ⟨bound - 1, by omega⟩
      rw [takeRun]
      refine (reads_peek (c :: run ++ rest)).bind ?_
      simp only [List.cons_append, List.head?_cons, hrun c List.mem_cons_self, if_true]
      have htail : Reads (takeRun p bound (c :: taken)) (run ++ rest)
          ((c :: taken).reverse ++ run) rest :=
        ih (fun d hd => hrun d (List.mem_cons_of_mem c hd)) (Nat.lt_of_succ_lt_succ hbound)
      rw [List.reverse_cons, List.append_assoc, List.singleton_append] at htail
      exact (reads_next (c :: (run ++ rest))).bind htail

theorem reads_boolean (b : Bool) (cs : List Char) :
    Reads boolean ('#' :: (if b then 't' else 'f') :: cs) (.boolean b) cs := by
  unfold boolean
  refine (reads_next _).bind ((reads_next _).bind ?_)
  cases b <;> exact .pure _ cs

/-- A number ends where no digit follows. -/
theorem reads_number {digits : List Char} (hnonempty : digits ≠ [])
    (hdigits : ∀ c ∈ digits, c.isDigit = true) (hrest : ∀ c ∈ rest.head?, c.isDigit = false)
    (hbound : digits.length < bound) :
    Reads (number bound) (digits ++ rest) (.number (Nat.ofDigitChars 10 digits 0)) rest := by
  unfold number
  refine (reads_takeRun hdigits hrest hbound).bind ?_
  obtain ⟨c, digits, rfl⟩ := List.exists_cons_of_ne_nil hnonempty
  obtain ⟨hc, hdigits⟩ := List.forall_mem_cons.mp hdigits
  simp only [List.reverse_nil, List.nil_append, Numeral.parse?_of_digits hc hdigits]
  exact .pure _ rest

theorem reads_stringRest {text taken : List Char} (htext : '"' ∉ text)
    (hbound : text.length < bound) :
    Reads (stringRest bound taken) (text ++ '"' :: rest)
      (.string (String.ofList (taken.reverse ++ text))) rest := by
  induction text generalizing bound taken with
  | nil =>
      obtain ⟨bound, rfl⟩ : ∃ b, bound = b + 1 := ⟨bound - 1, by omega⟩
      rw [stringRest, List.append_nil]
      exact (reads_next ('"' :: rest)).bind (.pure _ rest)
  | cons c text ih =>
      rw [List.length_cons] at hbound
      obtain ⟨bound, rfl⟩ : ∃ b, bound = b + 1 := ⟨bound - 1, by omega⟩
      rw [List.mem_cons, not_or] at htext
      obtain ⟨hc, htext⟩ := htext
      rw [stringRest]
      refine (reads_next (c :: (text ++ '"' :: rest))).bind ?_
      simp only [List.head?_cons, List.tail_cons, if_neg (Ne.symm hc)]
      have htail : Reads (stringRest bound (c :: taken)) (text ++ '"' :: rest)
          (.string (String.ofList ((c :: taken).reverse ++ text))) rest :=
        ih htext (Nat.lt_of_succ_lt_succ hbound)
      rw [List.reverse_cons, List.append_assoc, List.singleton_append] at htail
      exact htail

/-- A string ends at the next quote. -/
theorem reads_string {text : List Char} (htext : '"' ∉ text) (hbound : text.length < bound) :
    Reads (string bound) ('"' :: (text ++ '"' :: rest)) (.string (String.ofList text)) rest := by
  unfold string
  exact (reads_next _).bind (reads_stringRest htext hbound)

/-- A symbol ends at the next delimiter. -/
theorem reads_symbol {name : List Char} (hname : ∀ c ∈ name, isDelimiter c = false)
    (hnonempty : name ≠ []) (hrest : ∀ c ∈ rest.head?, isDelimiter c = true)
    (hbound : name.length < bound) :
    Reads (symbol bound) (name ++ rest) (.symbol (String.ofList name)) rest := by
  unfold symbol
  refine (reads_takeRun (fun c hc => by simp [hname c hc]) (fun c hc => by simp [hrest c hc])
    hbound).bind ?_
  simp only [List.reverse_nil, List.nil_append, List.isEmpty_iff, hnonempty, if_false]
  exact .pure _ rest

end TinyLisp.Reader
