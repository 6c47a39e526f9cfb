import TinyLisp.Proofs.Text.Readable
import TinyLisp.Proofs.Text.Tokens

/-!
Writing and reading.  Main statement: `read_text_iff_readable`, the written form of a value is read
as that value exactly when the value is readable, and whatever is read is readable.
-/

namespace TinyLisp

open CharStream Reader Scan Text

/-- A text that ends what stands before it: the end, or a delimiter. -/
def Stops (k : List Char) : Prop :=
  ∀ c ∈ k.head?, isDelimiter c = true

theorem Stops.nil : Stops [] := by
  simp [Stops]

theorem Stops.cons {c : Char} (hc : isDelimiter c = true) (k : List Char) : Stops (c :: k) := by
  rintro _ ⟨⟩
  exact hc

theorem isDigit_eq_false_of_isDelimiter {c : Char} (h : isDelimiter c = true) :
    c.isDigit = false := by
  cases hdigit : c.isDigit with
  | false => rfl
  | true =>
      have hblank := isBlank_eq_false_of_isDigit hdigit
      simp only [isDelimiter, hblank, Bool.or_false, Bool.or_eq_true, beq_iff_eq] at h
      rcases h with (((rfl | rfl) | rfl) | rfl) | rfl <;> exact absurd hdigit (by decide)

/-- What is written after the first of a pair starts with a blank or closes the list. -/
theorem Value.stops_writeAt_tail (v : Value) (k : List Char) : Stops (v.writeAt .tail k) := by
  intro c hc
  cases v <;> simp [writeAt, Position.atom] at hc <;> subst hc <;> decide

theorem Numeral.decimal_eq_cons (n : Nat) :
    ∃ c digits, decimal n = c :: digits ∧ c.isDigit = true := by
  cases hdigits : decimal n with
  | nil =>
      have hparse := parse?_decimal n
      rw [hdigits] at hparse
      cases hparse
  | cons c digits =>
      refine ⟨c, digits, rfl, isDigit_of_mem_decimal (n := n) ?_⟩
      rw [hdigits]
      exact List.mem_cons_self

/-- The digits written for a number denote it. -/
theorem Numeral.ofDigitChars_decimal (n : Nat) : Nat.ofDigitChars 10 (decimal n) 0 = n := by
  show Nat.ofDigitChars 10 (digits n) 0 = n
  rw [digits_eq, Nat.ofDigitChars_toDigits (by decide) (by decide)]

/-! ### Data at their first character -/

section Datum

variable {bound : Nat} {rest : List Char}

theorem reads_datum_digits {digits : List Char} (hnonempty : digits ≠ [])
    (hdigits : ∀ c ∈ digits, c.isDigit = true) (hrest : ∀ c ∈ rest.head?, c.isDigit = false)
    (hbound : digits.length + 1 < bound) :
    Reads (datum bound) (digits ++ rest) (.number (Nat.ofDigitChars 10 digits 0)) rest := by
  obtain ⟨bound, rfl⟩ : ∃ b, bound = b + 1 := ⟨bound - 1, by omega⟩
  rw [datum]
  refine (reads_peek _).bind ?_
  have hnumber := reads_number hnonempty hdigits hrest (Nat.lt_of_succ_lt_succ hbound)
  obtain ⟨c, digits, rfl⟩ := List.exists_cons_of_ne_nil hnonempty
  have hc : c.isDigit = true := hdigits c List.mem_cons_self
  have hne (d : Char) (hd : d.isDigit = false) : c ≠ d := by
    rintro rfl
    rw [hc] at hd
    cases hd
  simpa only [List.cons_append, List.head?_cons, if_neg (hne '#' rfl), if_neg (hne '"' rfl),
    if_neg (hne '(' rfl), if_neg (hne ')' rfl), hc, if_true] using hnumber

theorem reads_datum_number (n : Nat) (hrest : Stops rest)
    (hbound : (Numeral.decimal n).length + 1 < bound) :
    Reads (datum bound) (Numeral.decimal n ++ rest) (.number n) rest := by
  obtain ⟨c, digits, hdecimal, _⟩ := Numeral.decimal_eq_cons n
  have hread : Reads (datum bound) (Numeral.decimal n ++ rest)
      (.number (Nat.ofDigitChars 10 (Numeral.decimal n) 0)) rest :=
    reads_datum_digits (by simp [hdecimal]) (fun c hc => Numeral.isDigit_of_mem_decimal hc)
      (fun c hc => isDigit_eq_false_of_isDelimiter (hrest c hc)) hbound
  rwa [Numeral.ofDigitChars_decimal] at hread

theorem reads_datum_symbol {name : List Char} (hname : IsName name) (hrest : Stops rest)
    (hbound : name.length + 1 < bound) :
    Reads (datum bound) (name ++ rest) (.symbol (String.ofList name)) rest := by
  obtain ⟨bound, rfl⟩ : ∃ b, bound = b + 1 := ⟨bound - 1, by omega⟩
  rw [datum]
  refine (reads_peek _).bind ?_
  have hsymbol : Reads (symbol bound) (name ++ rest) (.symbol (String.ofList name)) rest :=
    reads_symbol hname.plain hname.nonempty hrest (by omega)
  cases name with
  | nil => exact absurd rfl hname.nonempty
  | cons c name =>
      have hc : isDelimiter c = false := hname.plain c List.mem_cons_self
      have hne (d : Char) (hd : isDelimiter d = true) : c ≠ d := by
        rintro rfl
        rw [hc] at hd
        cases hd
      simpa only [List.cons_append, List.head?_cons, if_neg (hne '#' rfl), if_neg (hne '"' rfl),
        if_neg (hne '(' rfl), if_neg (hne ')' rfl), hname.head c rfl, Bool.false_eq_true,
        if_false] using hsymbol

theorem reads_datum_string {text : List Char} (htext : '"' ∉ text)
    (hbound : text.length + 1 < bound) :
    Reads (datum bound) ('"' :: (text ++ '"' :: rest)) (.string (String.ofList text)) rest := by
  obtain ⟨bound, rfl⟩ : ∃ b, bound = b + 1 := ⟨bound - 1, by omega⟩
  rw [datum]
  exact (reads_peek _).bind (reads_string htext (by omega))

theorem reads_datum_boolean (b : Bool) (hbound : 0 < bound) :
    Reads (datum bound) ('#' :: (if b then 't' else 'f') :: rest) (.boolean b) rest := by
  obtain ⟨bound, rfl⟩ : ∃ b, bound = b + 1 := ⟨bound - 1, by omega⟩
  rw [datum]
  exact (reads_peek _).bind (reads_boolean b rest)

/-- A list, from its opening parenthesis on. -/
theorem reads_datum_list {cs : List Char} {d : Datum} (h : Reads (items bound []) cs d rest) :
    Reads (datum (bound + 1)) ('(' :: cs) d rest := by
  rw [datum]
  exact (reads_peek _).bind ((reads_next _).bind h)

end Datum

/-! ### Lists -/

section Lists

variable {bound : Nat} {cs middle rest k : List Char} {c : Char} {d r : Datum} {read : List Datum}

theorem reads_items_close (read : List Datum) (k : List Char) :
    Reads (items (bound + 2) read) (')' :: k) (.ofReversed read .nil) k := by
  rw [items]
  refine (reads_skipAtmosphere (c := ')') ⟨rfl, rfl, by decide⟩ (by omega)).bind ?_
  exact (reads_next _).bind (.pure _ k)

theorem reads_items_cons (hskip : Reads (skipAtmosphere bound) cs (some c) middle) (hc : c ≠ ')')
    {rest : List Char} (hd : Reads (datum bound) middle d rest) (hdot : d.isSymbol "." = false)
    (hrest : Reads (items bound (d :: read)) rest r k) :
    Reads (items (bound + 1) read) cs r k := by
  rw [items]
  refine hskip.bind ?_
  simp only [if_neg hc]
  refine hd.bind ?_
  simp only [hdot, Bool.false_eq_true, if_false]
  exact hrest

theorem reads_dottedTail (hbegins : Begins c cs) (hc : c ≠ ')')
    (hd : Reads (datum bound) cs d (')' :: k)) (hbound : 2 ≤ bound) :
    Reads (dottedTail (bound + 1)) (' ' :: cs) d k := by
  rw [dottedTail]
  refine (reads_skipAtmosphere_space hbegins hbound).bind ?_
  simp only [if_neg hc]
  refine hd.bind ?_
  unfold closeDotted
  refine (reads_skipAtmosphere (c := ')') ⟨rfl, rfl, by decide⟩ (by omega)).bind ?_
  exact (reads_next _).bind (.pure d k)

/-- A lone dot after an item announces the rest of the last pair. -/
theorem reads_items_dot (hread : read ≠ []) (hbound : 3 ≤ bound)
    (htail : Reads (dottedTail bound) (' ' :: cs) d k) :
    Reads (items (bound + 1) read) (' ' :: '.' :: ' ' :: cs) (.ofReversed read d) k := by
  have hdot : Reads (datum bound) ('.' :: ' ' :: cs) (.symbol ".") (' ' :: cs) :=
    reads_datum_symbol isName_dot (.cons rfl cs) hbound
  rw [items]
  refine (reads_skipAtmosphere_space (c := '.') ⟨rfl, rfl, by decide⟩ (by omega)).bind ?_
  refine hdot.bind ?_
  have hnonempty : read.isEmpty = false := by simpa using hread
  have hsymbol : (Datum.symbol ".").isSymbol "." = true := rfl
  simp only [hsymbol, if_true, hnonempty, Bool.false_eq_true, if_false]
  exact htail.bind (.pure _ k)

end Lists

/-! ### Values -/

theorem Value.begins_writeAt {v : Value} (h : v.Readable) (k : List Char) :
    ∃ c, Begins c (v.writeAt .alone k) ∧ c ≠ ')' := by
  cases v with
  | number m n =>
      obtain ⟨n, rfl⟩ := Int.eq_ofNat_of_zero_le h
      obtain ⟨c, digits, hdigits, hc⟩ := Numeral.decimal_eq_cons n
      refine ⟨c, ⟨by simp [writeAt, Position.atom, hdigits], isBlank_eq_false_of_isDigit hc, ?_⟩, ?_⟩
      all_goals
        rintro rfl
        exact absurd hc (by decide)
  | symbol m name =>
      obtain ⟨hnonempty, hplain, _⟩ := h
      obtain ⟨c, cs, hname⟩ := List.exists_cons_of_ne_nil hnonempty
      have hc : isDelimiter c = false := hplain c (by simp [hname])
      simp only [isDelimiter, Bool.or_eq_false_iff, beq_eq_false_iff_ne] at hc
      exact ⟨c, ⟨by simp [writeAt, Position.atom, hname], hc.2, hc.1.2⟩, hc.1.1.1.2⟩
  | string m text => exact ⟨'"', ⟨rfl, rfl, by decide⟩, by decide⟩
  | boolean m b => exact ⟨'#', ⟨rfl, rfl, by decide⟩, by decide⟩
  | nil m => exact ⟨'(', ⟨rfl, rfl, by decide⟩, by decide⟩
  | pair m first rest => exact ⟨'(', ⟨rfl, rfl, by decide⟩, by decide⟩
  | _ => cases h

theorem Value.length_lt_writeAt {v : Value} (h : v.Readable) (k : List Char) :
    k.length < (v.writeAt .alone k).length := by
  obtain ⟨c, ⟨hhead, _, _⟩, _⟩ := begins_writeAt h []
  have happend := writeAt_append .alone v [] k
  rw [List.nil_append] at happend
  rw [← happend, List.length_append]
  cases htext : v.writeAt .alone [] with
  | nil =>
      rw [htext] at hhead
      cases hhead
  | cons c text =>
      rw [List.length_cons]
      omega

/-- What reading is to make of a value that stands alone, and of one that is a rest.  Two of the
bound go for each character, for a list takes one to open and one for each item. -/
structure Value.ReadsAs (v : Value) (d : Datum) : Prop where
  alone : ∀ bound k, Stops k → 2 * (v.writeAt .alone k).length + 2 ≤ bound →
    Reads (datum bound) (v.writeAt .alone k) d k
  tail : ∀ bound read k, read ≠ [] → 2 * (v.writeAt .tail k).length + 3 ≤ bound →
    Reads (items bound read) (v.writeAt .tail k) (.ofReversed read d) k

/-- An atom is read as a rest because it is read alone. -/
theorem Value.ReadsAs.of_atom {v : Value} {d : Datum} (h : v.Readable)
    (hatom : ∀ k, v.writeAt .tail k = ' ' :: '.' :: ' ' :: v.writeAt .alone (')' :: k))
    (halone : ∀ bound k, Stops k → 2 * (v.writeAt .alone k).length + 2 ≤ bound →
      Reads (datum bound) (v.writeAt .alone k) d k) : v.ReadsAs d := by
  refine ⟨halone, fun bound read k hread hbound => ?_⟩
  rw [hatom] at hbound ⊢
  simp only [List.length_cons] at hbound
  obtain ⟨bound, rfl⟩ : ∃ b, bound = b + 2 := ⟨bound - 2, by omega⟩
  obtain ⟨c, hbegins, hc⟩ := begins_writeAt h (')' :: k)
  refine reads_items_dot hread (by omega) (reads_dottedTail hbegins hc ?_ (by omega))
  exact halone bound (')' :: k) (.cons rfl k) (by omega)

/-- By induction on the value: the first of a pair is read in front of what is written after it. -/
theorem Value.readsAs {v : Value} {d : Datum} (hd : v.datum? = some d) (h : v.Readable) :
    v.ReadsAs d := by
  induction v generalizing d with
  | number m n =>
      cases hd
      refine .of_atom h (fun k => by simp [writeAt, Position.atom]) fun bound k hk hbound => ?_
      obtain ⟨n, rfl⟩ := Int.eq_ofNat_of_zero_le h
      simp only [writeAt, Position.atom, List.length_append] at hbound ⊢
      exact reads_datum_number n hk (by omega)
  | string m text =>
      cases hd
      refine .of_atom h (fun k => by simp [writeAt, Position.atom]) fun bound k hk hbound => ?_
      simp only [writeAt, Position.atom, List.length_append, List.length_cons, List.cons_append,
        List.append_assoc, List.nil_append] at hbound ⊢
      have hstring : Reads (datum bound) ('"' :: (text.toList ++ '"' :: k))
          (.string (String.ofList text.toList)) k := reads_datum_string h (by omega)
      rwa [String.ofList_toList] at hstring
  | symbol m name =>
      cases hd
      refine .of_atom h (fun k => by simp [writeAt, Position.atom]) fun bound k hk hbound => ?_
      simp only [writeAt, Position.atom, List.length_append] at hbound ⊢
      have hsymbol : Reads (datum bound) (name.toList ++ k)
          (.symbol (String.ofList name.toList)) k := reads_datum_symbol h hk (by omega)
      rwa [String.ofList_toList] at hsymbol
  | boolean m b =>
      cases hd
      refine .of_atom h (fun k => by simp [writeAt, Position.atom]) fun bound k hk hbound => ?_
      exact reads_datum_boolean b (by omega)
  | nil m =>
      cases hd
      constructor
      · intro bound k hk hbound
        simp only [writeAt, List.length_cons] at hbound
        obtain ⟨bound, rfl⟩ : ∃ b, bound = b + 3 := ⟨bound - 3, by omega⟩
        exact reads_datum_list (reads_items_close [] k)
      · intro bound read k hread hbound
        obtain ⟨bound, rfl⟩ : ∃ b, bound = b + 2 := ⟨bound - 2, by omega⟩
        exact reads_items_close read k
  | pair m first rest ihFirst ihRest =>
      obtain ⟨d₁, d₂, hd₁, hd₂, rfl⟩ := datum?_pair_eq_some_iff.mp hd
      obtain ⟨hfirst, hdot, hrest⟩ := h
      rw [Ne, symbol?_eq_of_datum? hd₁, Bool.not_eq_true] at hdot
      have hreadsFirst := ihFirst hd₁ hfirst
      have hreadsRest := ihRest hd₂ hrest
      constructor
      · intro bound k hk hbound
        obtain ⟨bound, rfl⟩ : ∃ b, bound = b + 2 := ⟨bound - 2, by omega⟩
        obtain ⟨c, hbegins, hc⟩ := begins_writeAt hfirst (rest.writeAt .tail k)
        have hlength := length_lt_writeAt hfirst (rest.writeAt .tail k)
        simp only [writeAt, List.length_cons] at hbound ⊢
        refine reads_datum_list (reads_items_cons (reads_skipAtmosphere hbegins (by omega)) hc
          (hreadsFirst.alone bound _ (rest.stops_writeAt_tail k) (by omega)) hdot ?_)
        exact hreadsRest.tail bound [d₁] k (by simp) (by omega)
      · intro bound read k hread hbound
        obtain ⟨bound, rfl⟩ : ∃ b, bound = b + 1 := ⟨bound - 1, by omega⟩
        obtain ⟨c, hbegins, hc⟩ := begins_writeAt hfirst (rest.writeAt .tail k)
        have hlength := length_lt_writeAt hfirst (rest.writeAt .tail k)
        simp only [writeAt, List.length_cons] at hbound ⊢
        refine reads_items_cons (reads_skipAtmosphere_space hbegins (by omega)) hc
          (hreadsFirst.alone bound _ (rest.stops_writeAt_tail k) (by omega)) hdot ?_
        exact hreadsRest.tail bound (d₁ :: read) k (by simp) (by omega)
  | _ => cases h

theorem Reader.read_apply (text : String) :
    Reader.read text = (topLevel (boundFor (.ofText text)) (.ofText text)).1 := by
  change (readDatum (.ofText text)).1 = _
  rw [readDatum, bind_apply, get_apply]

/-- Reading the written form of a readable value gives its contents. -/
theorem read_text {v : Value} {d : Datum} (hd : v.datum? = some d) (h : v.Readable) :
    Reader.read v.text = .ok (some d) := by
  have hspells : (CharStream.ofText v.text).Spells (v.writeAt .alone []) := by
    have hspells := spells_ofText v.text
    rwa [v.toList_text] at hspells
  have hlength := hspells.length_le
  obtain ⟨c, hbegins, hc⟩ := Value.begins_writeAt h []
  have hreads : Reads (topLevel (boundFor (CharStream.ofText v.text))) (v.writeAt .alone [])
      (some d) [] := by
    unfold topLevel
    refine (reads_skipAtmosphere hbegins (by simp [boundFor])).bind ?_
    simp only [if_neg hc]
    refine ((Value.readsAs hd h).alone _ [] .nil ?_).bind (.pure _ [])
    rw [boundFor]
    omega
  obtain ⟨t, hrun, _⟩ := hreads _ hspells
  rw [read_apply, hrun]

/-- The object that a reader hands out: one with the contents that were read, or the end of the
input. -/
def State.makeRead : Option Datum → StateM State Value
  | some d => State.makeDatum d
  | none => State.make Value.eof

/-- The written form of a value is read as a value that is alike exactly when the value is readable;
what is read, from whatever bytes, is readable; so what was read once is read again. -/
theorem read_text_iff_readable :
    (∀ (v : Value) (s : State),
      (∃ answer, Reader.read v.text = .ok answer ∧
        (State.makeRead answer s).1.isAlike v = true) ↔ v.Readable) ∧
    (∀ (stream rest : CharStream) (d : Datum) (s : State),
      readDatum stream = (.ok (some d), rest) → (State.makeDatum d s).1.Readable) ∧
    ∀ (text : String) (d : Datum) (s : State),
      Reader.read text = .ok (some d) →
        Reader.read (State.makeDatum d s).1.text = .ok (some d) := by
  have hreadable {stream rest : CharStream} {d : Datum} (s : State)
      (h : readDatum stream = (.ok (some d), rest)) : (State.makeDatum d s).1.Readable :=
    Value.readable_iff.mpr ⟨d, datum?_makeDatum d s, readDatum_readable h⟩
  have hstream {text : String} {d : Datum} (h : Reader.read text = .ok (some d)) :
      readDatum (.ofText text) = (.ok (some d), (readDatum (.ofText text)).2) :=
    Prod.ext h rfl
  refine ⟨fun v s => ⟨?_, fun h => ?_⟩, fun _ _ _ s h => hreadable s h, fun text d s h => ?_⟩
  · rintro ⟨answer, hread, halike⟩
    cases answer with
    | some d =>
        have hcontents : v.datum? = some d :=
          (Value.isAlike_iff_of_datum? (datum?_makeDatum d s)).mp halike
        exact Value.readable_iff.mpr ⟨d, hcontents, readDatum_readable (hstream hread)⟩
    | none =>
        cases v with
        | eof m =>
            -- Its written form starts like a boolean.
            have hfails : Reader.read "#<eof>" = .error (.malformed (.badBoolean '<')) := rfl
            change Reader.read "#<eof>" = _ at hread
            rw [hfails] at hread
            cases hread
        | _ => cases halike
  · obtain ⟨d, hd, _⟩ := Value.readable_iff.mp h
    exact ⟨some d, read_text hd h, (Value.isAlike_iff_of_datum? (datum?_makeDatum d s)).mpr hd⟩
  · exact read_text (datum?_makeDatum d s) (hreadable s (hstream h))

/-- In `(a "b" . .)` the first dot announces a rest and the second one is it. -/
theorem read_text_iff_readable_dots :
    let d : Datum := .pair (.symbol "a") (.pair (.string "b") (.symbol "."))
    Reader.read "(a \"b\" . .)" = .ok (some d) ∧ (State.makeDatum d default).1.Readable ∧
      Reader.read (State.makeDatum d default).1.text = .ok (some d) := by
  intro d
  have hread : Reader.read "(a \"b\" . .)" = .ok (some d) := rfl
  refine ⟨hread, ?_, read_text_iff_readable.2.2 _ d default hread⟩
  exact read_text_iff_readable.2.1 (.ofText "(a \"b\" . .)") _ d default (Prod.ext hread rfl)

end TinyLisp
