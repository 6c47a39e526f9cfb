import TinyLisp.Proofs.Text.Grammar

/-!
The reader recognises the grammar.  On every text it has one outcome, within every bound that is
large enough and however the text is cut into lines.  Main statement: `readDatum_iff_denotes`, it
reads a datum exactly where the grammar has one, leaves exactly what follows it, meets the end
exactly where only blanks and comments are left, and calls everything else malformed.
-/

namespace TinyLisp

open CharStream Reader Text

/-- On every stream that spells `cs` the scan comes to `r` and leaves `rest` to come. -/
def Scan.Answers {α : Type} (m : Scan α) (cs : List Char) (r : Except Error α)
    (rest : List Char) : Prop :=
  ∀ s, s.Spells cs → ∃ t, m s = (r, t) ∧ t.Spells rest

namespace Scan.Answers

variable {α β : Type} {cs middle rest : List Char} {m : Scan α} {f : α → Scan β}

theorem throw (e : Error) (cs : List Char) :
    Answers (MonadExcept.throw e : Scan α) cs (.error e) cs :=
  fun s h => ⟨s, rfl, h⟩

theorem bind {a : α} {r : Except Error β} (hm : Reads m cs a middle)
    (hf : Answers (f a) middle r rest) : Answers (m >>= f) cs r rest := by
  intro s hs
  obtain ⟨t, hfirst, ht⟩ := hm s hs
  obtain ⟨u, hsecond, hu⟩ := hf t ht
  refine ⟨u, ?_, hu⟩
  rw [bind_apply, hfirst]
  exact hsecond

theorem fails {e : Error} (hm : Answers m cs (.error e) rest) :
    Answers (m >>= f) cs (.error e) rest := by
  intro s hs
  obtain ⟨t, hfirst, ht⟩ := hm s hs
  refine ⟨t, ?_, ht⟩
  rw [bind_apply, hfirst]

end Scan.Answers

namespace Reader

open Scan

variable {α β : Type} {cs middle start rest : List Char} {c : Char} {need bound : Nat}

/-- Within every bound from `need` on, the scan comes to one and the same outcome on the text: an
answer such that `accepts`, or the complaint that the text is malformed. -/
def Settles (m : Nat → Scan α) (need : Nat) (cs : List Char)
    (accepts : α → List Char → Prop) : Prop :=
  (∃ a rest, accepts a rest ∧ ∀ bound, need ≤ bound → Reads (m bound) cs a rest) ∨
    ∃ cause rest, ∀ bound, need ≤ bound → Answers (m bound) cs (.error (.malformed cause)) rest

namespace Settles

variable {m : Nat → Scan α} {f : Nat → α → Scan β} {accepts : α → List Char → Prop}
  {accepts' : β → List Char → Prop}

theorem throw (cause : SyntaxError) :
    Settles (fun _ => (MonadExcept.throw (.malformed cause) : Scan α)) need cs accepts :=
  .inr ⟨cause, cs, fun _ _ => Answers.throw _ cs⟩

theorem pure {a : α} (h : accepts a cs) :
    Settles (fun _ => (Pure.pure a : Scan α)) need cs accepts :=
  .inl ⟨a, cs, h, fun _ _ => Reads.pure a cs⟩

/-- A scan goes on from the answer of its first part. -/
theorem after {a : α} (hm : ∀ bound, need ≤ bound → Reads (m bound) cs a middle)
    (hf : Settles (fun bound => f bound a) need middle accepts') :
    Settles (fun bound => m bound >>= f bound) need cs accepts' := by
  rcases hf with ⟨b, rest, hb, hrun⟩ | ⟨cause, rest, hrun⟩
  · exact .inl ⟨b, rest, hb, fun bound hbound => (hm bound hbound).bind (hrun bound hbound)⟩
  · exact .inr ⟨cause, rest, fun bound hbound => .bind (hm bound hbound) (hrun bound hbound)⟩

theorem bind (hm : Settles m need cs accepts)
    (hf : ∀ a middle, accepts a middle → Settles (fun bound => f bound a) need middle accepts') :
    Settles (fun bound => m bound >>= f bound) need cs accepts' := by
  rcases hm with ⟨a, middle, ha, hrun⟩ | ⟨cause, rest, hrun⟩
  · exact after hrun (hf a middle ha)
  · exact .inr ⟨cause, rest, fun bound hbound => (hrun bound hbound).fails⟩

theorem mono {need' : Nat} (h : Settles m need cs accepts) (hneed : need ≤ need') :
    Settles m need' cs accepts := by
  rcases h with ⟨a, rest, ha, hrun⟩ | ⟨cause, rest, hrun⟩
  · exact .inl ⟨a, rest, ha, fun bound hbound => hrun bound (Nat.le_trans hneed hbound)⟩
  · exact .inr ⟨cause, rest, fun bound hbound => hrun bound (Nat.le_trans hneed hbound)⟩

/-- A call costs one of its bound. -/
theorem succ (h : Settles (fun bound => m (bound + 1)) need cs accepts) :
    Settles m (need + 1) cs accepts := by
  rcases h with ⟨a, rest, ha, hrun⟩ | ⟨cause, rest, hrun⟩
  · exact .inl ⟨a, rest, ha, of_succ_le hrun⟩
  · exact .inr ⟨cause, rest, of_succ_le hrun⟩

end Settles

/-! ### Gaps -/

/-- The rest of a comment is skipped up to its newline or the end. -/
theorem reads_skipComment {note : List Char} (hnote : '\n' ∉ note)
    (hrest : ∀ c ∈ rest.head?, c = '\n') (hbound : note.length < bound) :
    Reads (skipComment bound) (note ++ rest) () rest.tail := by
  induction note generalizing bound with
  | nil =>
      obtain ⟨bound, rfl⟩ : ∃ b, bound = b + 1 := ⟨bound - 1, by omega⟩
      rw [skipComment]
      refine (reads_next rest).bind ?_
      cases hhead : rest.head? with
      | none => exact .pure () rest.tail
      | some c =>
          simp only [if_pos (hrest c hhead)]
          exact .pure () rest.tail
  | cons c note ih =>
      rw [List.length_cons] at hbound
      rw [List.mem_cons, not_or] at hnote
      obtain ⟨bound, rfl⟩ : ∃ b, bound = b + 1 := ⟨bound - 1, by omega⟩
      rw [skipComment]
      refine (reads_next (c :: note ++ rest)).bind ?_
      simp only [List.cons_append, List.head?_cons, if_neg (Ne.symm hnote.1)]
      exact ih hnote.2 (Nat.lt_of_succ_lt_succ hbound)

/-- A comment is skipped, and then what follows its newline. -/
theorem reads_skipAtmosphere_comment {note : List Char} {o : Option Char} (hnote : '\n' ∉ note)
    (hend : ∀ c ∈ cs.head?, c = '\n') (hbound : note.length + 1 < bound)
    (hmore : Reads (skipAtmosphere bound) cs.tail o rest) :
    Reads (skipAtmosphere (bound + 1)) (';' :: (note ++ cs)) o rest := by
  rw [skipAtmosphere]
  refine (reads_peek _).bind ?_
  have hfirst : '\n' ∉ ';' :: note := List.not_mem_cons_of_ne_of_not_mem (by decide) hnote
  have hskip : Reads (skipComment bound) (';' :: note ++ cs) () cs.tail :=
    reads_skipComment hfirst hend hbound
  exact hskip.bind hmore

/-- A gap is skipped as far as it goes. -/
theorem reads_skipAtmosphere_gap (hgap : Gap cs rest) (hbare : Bare rest)
    (hbound : cs.length + 1 < bound) : Reads (skipAtmosphere bound) cs rest.head? rest := by
  induction hgap generalizing bound with
  | none cs =>
      obtain ⟨bound, rfl⟩ : ∃ b, bound = b + 1 := ⟨bound - 1, by omega⟩
      rw [skipAtmosphere]
      refine (reads_peek cs).bind ?_
      cases hhead : cs.head? with
      | none => exact .pure none cs
      | some c =>
          obtain ⟨hblank, hcomment⟩ := hbare c hhead
          simp only [if_neg hcomment, hblank, Bool.false_eq_true, if_false]
          exact .pure (some c) cs
  | @blank c cs rest hc _ ih =>
      rw [List.length_cons] at hbound
      obtain ⟨bound, rfl⟩ : ∃ b, bound = b + 1 := ⟨bound - 1, by omega⟩
      have hcomment : c ≠ ';' := by
        rintro rfl
        cases hc
      rw [skipAtmosphere]
      refine (reads_peek (c :: cs)).bind ?_
      simp only [List.head?_cons, if_neg hcomment, hc, if_true]
      exact (reads_next (c :: cs)).bind (ih hbare (by omega))
  | @comment note cs rest hnote _ ih =>
      simp only [List.length_cons, List.length_append] at hbound
      obtain ⟨bound, rfl⟩ : ∃ b, bound = b + 1 := ⟨bound - 1, by omega⟩
      refine reads_skipAtmosphere_comment hnote ?_ (by omega) (ih hbare (by omega))
      rintro _ ⟨⟩
      rfl
  | @lastComment note hnote =>
      rw [List.length_cons] at hbound
      obtain ⟨bound, rfl⟩ : ∃ b, bound = b + 2 := ⟨bound - 2, by omega⟩
      have hend : Reads (skipAtmosphere (bound + 1)) [] none [] := by
        rw [skipAtmosphere]
        exact (reads_peek []).bind (.pure none [])
      have hcomment : Reads (skipAtmosphere (bound + 2)) (';' :: (note ++ [])) none [] :=
        reads_skipAtmosphere_comment hnote (by simp) (by omega) hend
      rwa [List.append_nil] at hcomment

/-! ### One outcome on every text -/

/-- The outcome of a scan for a datum at the start of a text. -/
abbrev Yields (cs : List Char) (d : Datum) (rest : List Char) : Prop :=
  Denotes (.datum d) cs rest

/-- A boolean is one character after its hash; nothing else may stand there. -/
theorem settles_boolean (cs : List Char) :
    Settles (fun _ => boolean) need ('#' :: cs) (Yields ('#' :: cs)) := by
  refine Settles.after (fun _ _ => reads_next _) (Settles.after (fun _ _ => reads_next _) ?_)
  cases cs with
  | nil => exact Settles.throw _
  | cons c cs =>
      by_cases htrue : c = 't'
      · subst htrue
        exact Settles.pure (.boolean true cs)
      · by_cases hfalse : c = 'f'
        · subst hfalse
          exact Settles.pure (.boolean false cs)
        · simp only [List.tail_cons, List.head?_cons, if_neg htrue, if_neg hfalse]
          exact Settles.throw _

/-- Every text has a longest run of characters that satisfy `p` at its start. -/
theorem exists_run (p : Char → Bool) (cs : List Char) :
    ∃ run rest, cs = run ++ rest ∧ (∀ c ∈ run, p c = true) ∧ ∀ c ∈ rest.head?, p c = false := by
  refine ⟨cs.takeWhile p, cs.dropWhile p, List.takeWhile_append_dropWhile.symm,
    List.all_eq_true.mp List.all_takeWhile, ?_⟩
  intro c hc
  have hnot := List.head?_dropWhile_not p cs
  rwa [hc] at hnot

/-- A number is all the digits there are. -/
theorem settles_number (hc : c.isDigit = true) (cs : List Char) :
    Settles number (cs.length + 2) (c :: cs) (Yields (c :: cs)) := by
  obtain ⟨digits, rest, hsplit, hdigits, hrest⟩ := exists_run Char.isDigit (c :: cs)
  have hnonempty : digits ≠ [] := by
    rintro rfl
    have hnot := hrest c (by rw [← List.nil_append rest, ← hsplit]; rfl)
    rw [hc] at hnot
    cases hnot
  have hlength := congrArg List.length hsplit
  rw [List.length_append, List.length_cons] at hlength
  rw [hsplit]
  exact .inl ⟨_, rest, .number hnonempty hdigits hrest, fun bound hbound =>
    reads_number hnonempty hdigits hrest (by omega)⟩

/-- A symbol is all there is up to a delimiter. -/
theorem settles_symbol (hdigit : ∀ c ∈ cs.head?, c.isDigit = false) :
    Settles symbol (cs.length + 1) cs (Yields cs) := by
  obtain ⟨name, rest, rfl, hplain, hrest⟩ := exists_run (fun c => !isDelimiter c) cs
  rw [List.length_append]
  refine Settles.after (fun _ hbound => reads_takeRun hplain hrest (by omega)) ?_
  rw [List.reverse_nil, List.nil_append]
  by_cases hempty : name = []
  · simp only [hempty, List.isEmpty_nil, if_true]
    exact Settles.throw _
  · simp only [List.isEmpty_iff, if_neg hempty]
    have hname : IsName name := by
      refine ⟨hempty, by simpa using hplain, fun c hc => hdigit c ?_⟩
      rw [List.head?_append, Option.mem_def.mp hc]
      rfl
    exact Settles.pure (.symbol hname fun c hc => by simpa using hrest c hc)

/-- A string without an end. -/
theorem answers_stringRest {text taken : List Char} (htext : '"' ∉ text)
    (hbound : text.length < bound) :
    Answers (stringRest bound taken) text (.error (.malformed .unterminatedString)) [] := by
  induction text generalizing bound taken with
  | nil =>
      obtain ⟨bound, rfl⟩ : ∃ b, bound = b + 1 := ⟨bound - 1, by omega⟩
      rw [stringRest]
      exact .bind (reads_next []) (.throw _ [])
  | cons c text ih =>
      rw [List.length_cons] at hbound
      obtain ⟨bound, rfl⟩ : ∃ b, bound = b + 1 := ⟨bound - 1, by omega⟩
      rw [List.mem_cons, not_or] at htext
      rw [stringRest]
      refine .bind (reads_next (c :: text)) ?_
      simp only [List.head?_cons, List.tail_cons, if_neg (Ne.symm htext.1)]
      exact ih htext.2 (Nat.lt_of_succ_lt_succ hbound)

/-- A string is all there is up to the next quote. -/
theorem settles_string (cs : List Char) :
    Settles string (cs.length + 1) ('"' :: cs) (Yields ('"' :: cs)) := by
  by_cases hquote : '"' ∈ cs
  · obtain ⟨text, rest, rfl, htext⟩ := List.eq_append_cons_of_mem hquote
    refine .inl ⟨_, rest, .string htext, fun bound hbound => reads_string htext ?_⟩
    rw [List.length_append] at hbound
    omega
  · refine .inr ⟨.unterminatedString, [], fun bound hbound => ?_⟩
    exact .bind (reads_next _) (answers_stringRest hquote hbound)

/-- Only a closing parenthesis may follow the datum after a dot. -/
theorem settles_closeDotted (tail : Datum) (cs : List Char) :
    Settles (fun bound => closeDotted bound tail) (cs.length + 2) cs
      fun d rest => d = tail ∧ Gap cs (')' :: rest) := by
  obtain ⟨start, hgap, hbare⟩ := exists_gap cs
  refine Settles.after (fun _ hbound => reads_skipAtmosphere_gap hgap hbare hbound) ?_
  cases start with
  | nil => exact Settles.throw _
  | cons c rest =>
      by_cases hclose : c = ')'
      · subst hclose
        exact Settles.after (fun _ _ => reads_next _) (Settles.pure ⟨rfl, hgap⟩)
      · simp only [List.head?_cons, if_neg hclose]
        exact Settles.throw _

/-- A datum settles if the items do that may be in it. -/
theorem settles_datum_of
    (hitems : ∀ more, cs = '(' :: more →
      Settles (fun bound => items bound []) (2 * more.length + 3) more (Yields cs)) :
    Settles datum (2 * cs.length + 2) cs (Yields cs) := by
  refine Settles.succ ?_
  simp only [datum]
  refine Settles.after (fun _ _ => reads_peek cs) ?_
  cases cs with
  | nil => exact Settles.throw _
  | cons c cs =>
      simp only [List.head?_cons]
      by_cases hhash : c = '#'
      · subst hhash
        exact settles_boolean cs
      by_cases hquote : c = '"'
      · subst hquote
        exact (settles_string cs).mono (by rw [List.length_cons]; omega)
      by_cases hopen : c = '('
      · subst hopen
        exact Settles.after (fun _ _ => reads_next _)
          ((hitems cs rfl).mono (by rw [List.length_cons]; omega))
      by_cases hclose : c = ')'
      · subst hclose
        exact Settles.throw _
      simp only [if_neg hhash, if_neg hquote, if_neg hopen, if_neg hclose]
      by_cases hdigit : c.isDigit = true
      · simp only [if_pos hdigit]
        exact (settles_number hdigit cs).mono (by rw [List.length_cons]; omega)
      · simp only [if_neg hdigit]
        refine (settles_symbol ?_).mono (by rw [List.length_cons]; omega)
        rintro _ ⟨⟩
        simpa using hdigit

/-- What may follow the dot of a list: a datum and the closing parenthesis. -/
theorem settles_dottedTail_of
    (hdatum : ∀ start, start.length ≤ cs.length →
      Settles datum (2 * start.length + 2) start (Yields start)) :
    Settles dottedTail (2 * cs.length + 3) cs fun tail rest =>
      ∃ start stop, Gap cs start ∧ Denotes (.datum tail) start stop ∧ Gap stop (')' :: rest) := by
  refine Settles.succ ?_
  simp only [dottedTail]
  obtain ⟨start, hgap, hbare⟩ := exists_gap cs
  have hlength := hgap.length_le
  refine Settles.after (fun _ hbound => reads_skipAtmosphere_gap hgap hbare (by omega)) ?_
  cases start with
  | nil => exact Settles.throw _
  | cons c more =>
      by_cases hclose : c = ')'
      · simp only [List.head?_cons, if_pos hclose]
        exact Settles.throw _
      · simp only [List.head?_cons, if_neg hclose]
        refine ((hdatum _ hlength).mono (by omega)).bind fun tail stop htail => ?_
        have hstop := htail.length_lt
        rcases settles_closeDotted tail stop with ⟨d, rest, ⟨rfl, hend⟩, hrun⟩ | ⟨cause, rest, hrun⟩
        · exact .inl ⟨d, rest, ⟨_, stop, hgap, htail, hend⟩, fun b hb => hrun b (by omega)⟩
        · exact .inr ⟨cause, rest, fun b hb => hrun b (by omega)⟩

/-- By induction on the text: behind the items of a list there are more items, its end, or its
dot. -/
theorem settles_items {whole : List Char} {read : List Datum}
    (hread : Denotes (.items read.reverse) whole cs) :
    Settles (fun bound => items bound read) (2 * cs.length + 3) cs (Yields ('(' :: whole)) := by
  induction hlength : cs.length using Nat.strongRecOn generalizing whole read cs with
  | ind n ih =>
      subst hlength
      have hdatum (start : List Char) (hle : start.length ≤ cs.length) :
          Settles datum (2 * start.length + 2) start (Yields start) := by
        refine settles_datum_of ?_
        rintro more rfl
        exact ih more.length hle (.noItems more) rfl
      refine Settles.succ ?_
      simp only [items]
      obtain ⟨start, hgap, hbare⟩ := exists_gap cs
      have hstart := hgap.length_le
      refine Settles.after (fun _ hbound => reads_skipAtmosphere_gap hgap hbare (by omega)) ?_
      cases start with
      | nil => exact Settles.throw _
      | cons c more =>
          by_cases hclose : c = ')'
          · subst hclose
            refine Settles.after (fun _ _ => reads_next _) (Settles.pure ?_)
            rw [Datum.ofReversed_eq_listWithTail]
            exact .list hread hgap
          simp only [List.head?_cons, if_neg hclose]
          refine ((hdatum _ hstart).mono (by omega)).bind fun d middle hd => ?_
          have hmiddle := hd.length_lt
          by_cases hdot : d.isSymbol "." = true
          · simp only [hdot, if_true]
            by_cases hempty : read = []
            · simp only [hempty, List.isEmpty_nil, if_true]
              exact Settles.throw _
            simp only [List.isEmpty_iff, if_neg hempty]
            obtain ⟨hlone, hstops⟩ := hd.eq_dot hdot
            have hdatum' (start : List Char) (hle : start.length ≤ middle.length) :
                Settles datum (2 * start.length + 2) start (Yields start) :=
              hdatum start (by omega)
            refine ((settles_dottedTail_of hdatum').mono (by omega)).bind
              fun tail rest hrest => Settles.pure ?_
            obtain ⟨start, stop, hfrom, htail, hend⟩ := hrest
            rw [hlone] at hgap
            rw [Datum.ofReversed_eq_listWithTail]
            exact .dotted (by simpa using hempty) hread hgap hstops hfrom htail hend
          · rw [Bool.not_eq_true] at hdot
            simp only [hdot, Bool.false_eq_true, if_false]
            have hmore : Denotes (.items (d :: read).reverse) whole middle := by
              rw [List.reverse_cons]
              exact hread.snoc hgap hd hdot
            exact (ih middle.length (by omega) hmore rfl).mono (by omega)

theorem settles_datum (cs : List Char) : Settles datum (2 * cs.length + 2) cs (Yields cs) := by
  refine settles_datum_of ?_
  rintro more rfl
  exact settles_items (.noItems more)

/-! ### Every phrase is read -/

/-- What the reader makes of a phrase: it reads a datum, and comes over items to what follows
them. -/
def Recognises : Phrase → List Char → List Char → Prop
  | .datum d, cs, rest => ∀ bound, 2 * cs.length + 2 ≤ bound → Reads (datum bound) cs d rest
  | .items ds, cs, rest => ∀ (read : List Datum) (d : Datum) (k : List Char),
      (∀ bound, 2 * rest.length + 3 ≤ bound → Reads (items bound (ds.reverse ++ read)) rest d k) →
      ∀ bound, 2 * cs.length + 3 ≤ bound → Reads (items bound read) cs d k

/-- The items of a list end at a parenthesis. -/
theorem reads_items_end (read : List Datum) (hclose : Gap cs (')' :: rest))
    (hbound : cs.length + 3 ≤ bound) :
    Reads (items bound read) cs (.ofReversed read .nil) rest := by
  obtain ⟨bound, rfl⟩ : ∃ b, bound = b + 1 := ⟨bound - 1, by omega⟩
  rw [items]
  have hskip := reads_skipAtmosphere_gap hclose (bare_cons rfl (by decide) rest)
    (show cs.length + 1 < bound by omega)
  exact hskip.bind ((reads_next _).bind (.pure _ rest))

theorem reads_dottedTail_gap {tail : Datum} {stop : List Char} (hstart : Gap cs start)
    (hdenotes : Denotes (.datum tail) start stop) (hclose : Gap stop (')' :: rest))
    (htail : ∀ bound, 2 * start.length + 2 ≤ bound → Reads (datum bound) start tail stop)
    (hbound : 2 * cs.length + 3 ≤ bound) : Reads (dottedTail bound) cs tail rest := by
  have hlength := hstart.length_le
  have hstop := hdenotes.length_lt
  obtain ⟨bound, rfl⟩ : ∃ b, bound = b + 1 := ⟨bound - 1, by omega⟩
  obtain ⟨c, ⟨hhead, _, _⟩, hc⟩ := hdenotes.begins
  rw [dottedTail]
  refine (reads_skipAtmosphere_gap hstart hdenotes.bare (by omega)).bind ?_
  simp only [hhead, if_neg hc]
  refine (htail bound (by omega)).bind ?_
  have hend := reads_skipAtmosphere_gap hclose (bare_cons rfl (by decide) rest)
    (show stop.length + 1 < bound by omega)
  exact hend.bind ((reads_next _).bind (.pure tail rest))

/-- A lone dot after an item announces the rest of the last pair, whatever stands between them. -/
theorem reads_items_dot_gap {tail : Datum} {read : List Datum} {after : List Char}
    (hnonempty : read ≠ []) (hdot : Gap cs ('.' :: after)) (hlone : Stops after)
    (hbound : cs.length + 3 ≤ bound) (htail : Reads (dottedTail bound) after tail rest) :
    Reads (items (bound + 1) read) cs (.ofReversed read tail) rest := by
  have hlength := hdot.length_le
  rw [List.length_cons] at hlength
  have hsymbol : Reads (datum bound) ('.' :: after) (.symbol ".") after :=
    reads_datum_symbol isName_dot hlone (by simp; omega)
  have hisSymbol : (Datum.symbol ".").isSymbol "." = true := rfl
  rw [items]
  refine (reads_skipAtmosphere_gap hdot (bare_cons rfl (by decide) after) (by omega)).bind ?_
  refine hsymbol.bind ?_
  simp only [hisSymbol, if_true, List.isEmpty_iff, if_neg hnonempty]
  exact htail.bind (.pure _ rest)

/-- By induction on the phrase, the items before any that may follow. -/
theorem recognises_of_denotes {p : Phrase} (h : Denotes p cs rest) : Recognises p cs rest := by
  induction h with
  | boolean b rest => exact fun bound hbound => reads_datum_boolean b (by omega)
  | number hnonempty hdigits hrest =>
      intro bound hbound
      rw [List.length_append] at hbound
      exact reads_datum_digits hnonempty hdigits hrest (by omega)
  | string htext =>
      intro bound hbound
      simp only [List.length_cons, List.length_append] at hbound
      exact reads_datum_string htext (by omega)
  | symbol hname hrest =>
      intro bound hbound
      rw [List.length_append] at hbound
      exact reads_datum_symbol hname hrest (by omega)
  | @list ds cs last rest hitems hclose ih =>
      intro bound hbound
      rw [List.length_cons] at hbound
      obtain ⟨bound, rfl⟩ : ∃ b, bound = b + 1 := ⟨bound - 1, by omega⟩
      refine reads_datum_list (ih [] _ rest (fun bound hbound => ?_) bound (by omega))
      rw [List.append_nil]
      have hend : Reads (items bound ds.reverse) last (.ofReversed ds.reverse .nil) rest :=
        reads_items_end ds.reverse hclose (by omega)
      rwa [Datum.ofReversed_eq_listWithTail, List.reverse_reverse] at hend
  | @dotted ds tail cs last after start stop rest hnonempty hitems hdot hlone hstart htail hclose
      ihitems ihtail =>
      intro bound hbound
      rw [List.length_cons] at hbound
      obtain ⟨bound, rfl⟩ : ∃ b, bound = b + 1 := ⟨bound - 1, by omega⟩
      refine reads_datum_list (ihitems [] _ rest (fun bound hbound => ?_) bound (by omega))
      have hlast := hdot.length_le
      rw [List.length_cons] at hlast
      obtain ⟨bound, rfl⟩ : ∃ b, bound = b + 1 := ⟨bound - 1, by omega⟩
      rw [List.append_nil]
      have hrest : Reads (dottedTail bound) after tail rest :=
        reads_dottedTail_gap hstart htail hclose ihtail (by omega)
      have hend : Reads (items (bound + 1) ds.reverse) last (.ofReversed ds.reverse tail) rest :=
        reads_items_dot_gap (by simpa using hnonempty) hdot hlone (by omega) hrest
      rwa [Datum.ofReversed_eq_listWithTail, List.reverse_reverse] at hend
  | noItems cs => exact fun read d k hmore => hmore
  | @item d ds cs start middle rest hgap hd hdot hitems ihd ihitems =>
      intro read r k hmore bound hbound
      have hlength := hgap.length_le
      have hlength' := hd.length_lt
      obtain ⟨bound, rfl⟩ : ∃ b, bound = b + 1 := ⟨bound - 1, by omega⟩
      obtain ⟨c, ⟨hhead, _, _⟩, hc⟩ := hd.begins
      have hskip := reads_skipAtmosphere_gap hgap hd.bare (show cs.length + 1 < bound by omega)
      rw [hhead] at hskip
      refine reads_items_cons hskip hc (ihd bound (by omega)) hdot ?_
      refine ihitems (d :: read) r k (fun bound hbound => ?_) bound (by omega)
      have hread := hmore bound hbound
      rwa [List.reverse_cons, List.append_assoc, List.singleton_append] at hread

/-! ### At top level -/

/-- Behind its first gap a text ends, goes on with a datum, or cannot be read, whatever the gap. -/
theorem topLevel_cases (hbare : Bare start) :
    start = [] ∨ (∃ d rest, Denotes (.datum d) start rest) ∨
      ∃ cause rest, ∀ cs, Gap cs start → ∀ bound, 2 * cs.length + 2 ≤ bound →
        Answers (topLevel bound) cs (.error (.malformed cause)) rest := by
  cases start with
  | nil => exact .inl rfl
  | cons c more =>
      refine .inr ?_
      by_cases hclose : c = ')'
      · subst hclose
        refine .inr ⟨.unmatchedClose, more, fun cs hgap bound hbound => ?_⟩
        refine .bind (reads_skipAtmosphere_gap hgap hbare (by omega)) ?_
        exact .bind (reads_next _) (.throw _ more)
      · rcases settles_datum (c :: more) with ⟨d, rest, hd, _⟩ | ⟨cause, rest, hrun⟩
        · exact .inl ⟨d, rest, hd⟩
        · refine .inr ⟨cause, rest, fun cs hgap bound hbound => ?_⟩
          have hlength := hgap.length_le
          refine .bind (reads_skipAtmosphere_gap hgap hbare (by omega)) ?_
          simp only [List.head?_cons, if_neg hclose]
          exact (hrun bound (by omega)).fails

/-- The bound that reading computes is large enough. -/
theorem answers_readDatum {r : Except Error (Option Datum)}
    (h : ∀ bound, 2 * cs.length + 2 ≤ bound → Answers (topLevel bound) cs r rest) :
    Answers readDatum cs r rest := by
  intro s hs
  have hlength := hs.length_le
  rw [readDatum_apply]
  exact h (boundFor s) (by rw [boundFor]; omega) s hs

theorem reads_readDatum_none (hgap : Gap cs []) : Reads readDatum cs none [] :=
  answers_readDatum fun _ hbound =>
    (reads_skipAtmosphere_gap hgap bare_nil (by omega)).bind (.pure none [])

theorem reads_readDatum_some {d : Datum} (hgap : Gap cs start)
    (hd : Denotes (.datum d) start rest) : Reads readDatum cs (some d) rest := by
  have hlength := hgap.length_le
  obtain ⟨c, ⟨hhead, _, _⟩, hc⟩ := hd.begins
  refine answers_readDatum fun bound hbound => ?_
  have hskip := reads_skipAtmosphere_gap hgap hd.bare (show cs.length + 1 < bound by omega)
  rw [hhead] at hskip
  refine Answers.bind hskip ?_
  simp only [if_neg hc]
  exact (recognises_of_denotes hd bound (by omega)).bind (.pure (some d) rest)

end Reader

/-- A stream spells one text. -/
theorem CharStream.Spells.unique {s : CharStream} {cs cs' : List Char} (h : s.Spells cs)
    (h' : s.Spells cs') : cs = cs' := by
  obtain ⟨later, rfl, hunread, _⟩ := h
  obtain ⟨later', rfl, hunread', _⟩ := h'
  have hdecoded := decode?_encoded later
  rw [← hunread, hunread', decode?_encoded] at hdecoded
  rw [Option.some.inj hdecoded]

/-- Reading a stream of valid text meets the end exactly when the text is a gap; it comes to a datum
and leaves `rest` exactly when the text is a gap, what denotes the datum, and `rest`; in every other
case the text is malformed. -/
theorem readDatum_iff_denotes {s : CharStream} {cs : List Char} (h : s.Spells cs) :
    ((∃ t, readDatum s = (.ok none, t)) ↔ Gap cs []) ∧
    (∀ d rest, (∃ t, readDatum s = (.ok (some d), t) ∧ t.Spells rest) ↔
      ∃ start, Gap cs start ∧ Denotes (.datum d) start rest) ∧
    (¬ Gap cs [] → (¬ ∃ d start rest, Gap cs start ∧ Denotes (.datum d) start rest) →
      ∃ cause t, readDatum s = (.error (.malformed cause), t)) := by
  have hnone : Gap cs [] → ∃ t, readDatum s = (.ok none, t) := fun hgap =>
    (reads_readDatum_none hgap s h).imp fun _ => And.left
  have hsome (d : Datum) (rest : List Char) :
      (∃ start, Gap cs start ∧ Denotes (.datum d) start rest) →
        ∃ t, readDatum s = (.ok (some d), t) ∧ t.Spells rest := by
    rintro ⟨start, hgap, hd⟩
    exact reads_readDatum_some hgap hd s h
  -- The one outcome that the text has, whichever it is.
  obtain ⟨start, hgap, hbare⟩ := exists_gap cs
  rcases topLevel_cases hbare with rfl | ⟨d, rest, hd⟩ | ⟨cause, rest, hrun⟩
  · obtain ⟨t, ht⟩ := hnone hgap
    refine ⟨⟨fun _ => hgap, hnone⟩, fun d rest => ⟨?_, hsome d rest⟩, fun h => absurd hgap h⟩
    rintro ⟨t', ht', _⟩
    rw [ht] at ht'
    cases ht'
  · obtain ⟨t, ht, hrest⟩ := hsome d rest ⟨start, hgap, hd⟩
    refine ⟨⟨?_, hnone⟩, fun d' rest' => ⟨?_, hsome d' rest'⟩,
      fun _ h => absurd ⟨d, start, rest, hgap, hd⟩ h⟩
    · rintro ⟨t', ht'⟩
      rw [ht] at ht'
      cases ht'
    · rintro ⟨t', ht', hrest'⟩
      rw [ht] at ht'
      cases ht'
      rw [hrest'.unique hrest]
      exact ⟨start, hgap, hd⟩
  · obtain ⟨t, ht, _⟩ := answers_readDatum (hrun cs hgap) s h
    refine ⟨⟨?_, hnone⟩, fun d rest' => ⟨?_, hsome d rest'⟩, fun _ _ => ⟨cause, t, ht⟩⟩
    · rintro ⟨t', ht'⟩
      rw [ht] at ht'
      cases ht'
    · rintro ⟨t', ht', _⟩
      rw [ht] at ht'
      cases ht'

/-- A digit ends no list and a letter ends a number, a dot may stand for itself after a dot, and
what follows a closing parenthesis is left. -/
theorem readDatum_iff_denotes_split_tokens :
    ∃ t, readDatum (.ofText "; 1\n(12ab . .)#t") =
        (.ok (some (.listWithTail [.number 12, .symbol "ab"] (.symbol "."))), t) ∧
      t.Spells ['#', 't'] := by
  have htext : "; 1\n(12ab . .)#t".toList =
      [';', ' ', '1', '\n', '(', '1', '2', 'a', 'b', ' ', '.', ' ', '.', ')', '#', 't'] := by decide
  have hspells := spells_ofText "; 1\n(12ab . .)#t"
  rw [htext] at hspells
  have hgap (k : List Char) : Gap (';' :: ' ' :: '1' :: '\n' :: k) k := by
    change Gap (';' :: ([' ', '1'] ++ '\n' :: k)) k
    exact .comment (by simp) (.none k)
  have hnumber (k : List Char) : Denotes (.datum (.number 12)) ('1' :: '2' :: 'a' :: k)
      ('a' :: k) := by
    change Denotes (.datum (.number (Nat.ofDigitChars 10 ['1', '2'] 0))) (['1', '2'] ++ 'a' :: k) _
    apply Denotes.number (by simp) (by simp)
    rintro _ ⟨⟩
    rfl
  have hsymbol (k : List Char) : Denotes (.datum (.symbol "ab")) ('a' :: 'b' :: ' ' :: k)
      (' ' :: k) := by
    change Denotes (.datum (.symbol (String.ofList ['a', 'b']))) (['a', 'b'] ++ ' ' :: k) _
    exact .symbol ⟨by simp, by simp [isDelimiter, isBlank, blankPoints], by simp⟩ (.cons rfl k)
  have hdot (k : List Char) : Denotes (.datum (.symbol ".")) ('.' :: ')' :: k) (')' :: k) :=
    .symbol isName_dot (.cons rfl k)
  refine ((readDatum_iff_denotes hspells).2.1 _ _).mpr ⟨_, hgap _, ?_⟩
  exact .dotted (by decide)
    (.item (.none _) (hnumber _) rfl (.item (.none _) (hsymbol _) rfl (.noItems _)))
    (.blank rfl (.none _)) (.cons rfl _) (.blank rfl (.none _)) (hdot _) (.none _)

end TinyLisp
