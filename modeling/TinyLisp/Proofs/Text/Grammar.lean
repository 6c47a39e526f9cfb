import TinyLisp.Proofs.Text.RoundTrip

/-!
The grammar of texts: what may stand between data, and which text denotes which datum.  A text is
related to what is left of it behind a phrase, for a token is as long as it can be and so depends on
what follows.
-/

namespace TinyLisp.Text

/-- `Gap cs rest`: between `cs` and `rest` there are only blanks and comments.  A comment runs to a
newline or to the end of the text. -/
inductive Gap : List Char → List Char → Prop where
  | none (cs) : Gap cs cs
  | blank {c cs rest} (hc : isBlank c = true) (h : Gap cs rest) : Gap (c :: cs) rest
  | comment {note cs rest} (hnote : '\n' ∉ note) (h : Gap cs rest) :
      Gap (';' :: (note ++ '\n' :: cs)) rest
  | lastComment {note} (hnote : '\n' ∉ note) : Gap (';' :: note) []

/-- What a part of a text can stand for: a datum, or the items of a list up to its end or dot. -/
inductive Phrase where
  | datum (d : Datum)
  | items (ds : List Datum)
  deriving DecidableEq, Repr

/-- The number of data in a phrase. -/
def Phrase.count : Phrase → Nat
  | datum _ => 1
  | items ds => ds.length

/-- `Denotes p cs rest`: a phrase that stands for `p` leads from `cs` to `rest`. -/
inductive Denotes : Phrase → List Char → List Char → Prop where
  | boolean (b rest) :
      Denotes (.datum (.boolean b)) ('#' :: (if b then 't' else 'f') :: rest) rest
  | number {digits rest} (hnonempty : digits ≠ []) (hdigits : ∀ c ∈ digits, c.isDigit = true)
      (hrest : ∀ c ∈ rest.head?, c.isDigit = false) :
      Denotes (.datum (.number (Nat.ofDigitChars 10 digits 0))) (digits ++ rest) rest
  | string {text rest} (htext : '"' ∉ text) :
      Denotes (.datum (.string (String.ofList text))) ('"' :: (text ++ '"' :: rest)) rest
  | symbol {name rest} (hname : IsName name) (hrest : Stops rest) :
      Denotes (.datum (.symbol (String.ofList name))) (name ++ rest) rest
  | list {ds cs last rest} (hitems : Denotes (.items ds) cs last)
      (hclose : Gap last (')' :: rest)) :
      Denotes (.datum (.listWithTail ds .nil)) ('(' :: cs) rest
  | dotted {ds tail cs last after start stop rest} (hnonempty : ds ≠ [])
      (hitems : Denotes (.items ds) cs last) (hdot : Gap last ('.' :: after)) (hlone : Stops after)
      (hstart : Gap after start) (htail : Denotes (.datum tail) start stop)
      (hclose : Gap stop (')' :: rest)) :
      Denotes (.datum (.listWithTail ds tail)) ('(' :: cs) rest
  | noItems (cs) : Denotes (.items []) cs cs
  | item {d ds cs start middle rest} (hgap : Gap cs start) (hd : Denotes (.datum d) start middle)
      (hdot : d.isSymbol "." = false) (hitems : Denotes (.items ds) middle rest) :
      Denotes (.items (d :: ds)) cs rest

/-! ### Gaps -/

section Gap

variable {cs middle rest k : List Char}

theorem Gap.length_le (h : Gap cs rest) : rest.length ≤ cs.length := by
  induction h with
  | none => exact Nat.le_refl _
  | blank _ _ ih => exact Nat.le_succ_of_le ih
  | comment _ _ ih =>
      simp only [List.length_cons, List.length_append]
      omega
  | lastComment => exact Nat.zero_le _

theorem Gap.suffix (h : Gap cs rest) : rest <:+ cs := by
  induction h with
  | none cs => exact List.suffix_rfl
  | blank _ _ ih => exact ih.trans (List.suffix_cons _ _)
  | @comment note cs _ _ _ ih =>
      have hnote : cs <:+ note ++ '\n' :: cs :=
        (List.suffix_cons _ _).trans (List.suffix_append _ _)
      exact (ih.trans hnote).trans (List.suffix_cons _ _)
  | lastComment => exact List.nil_suffix

theorem Gap.trans (h : Gap cs middle) (h' : Gap middle rest) : Gap cs rest := by
  induction h with
  | none => exact h'
  | blank hc _ ih => exact .blank hc (ih h')
  | comment hnote _ ih => exact .comment hnote (ih h')
  | lastComment hnote =>
      cases h'
      exact .lastComment hnote

/-- A gap in front of something stays one whatever is added at the end. -/
theorem Gap.append (h : Gap cs rest) (hrest : rest ≠ []) (k : List Char) :
    Gap (cs ++ k) (rest ++ k) := by
  induction h with
  | none => exact .none _
  | blank hc _ ih => exact .blank hc (ih hrest)
  | comment hnote _ ih =>
      rw [List.cons_append, List.append_assoc, List.cons_append]
      exact .comment hnote (ih hrest)
  | lastComment => exact absurd rfl hrest

/-- A newline ends whatever a text without data ends in. -/
theorem Gap.newline (h : Gap cs []) (k : List Char) : Gap (cs ++ '\n' :: k) k := by
  generalize hend : ([] : List Char) = rest at h
  induction h with
  | none =>
      subst hend
      exact .blank rfl (.none k)
  | blank hc _ ih => exact .blank hc (ih hend)
  | comment hnote _ ih =>
      rw [List.cons_append, List.append_assoc, List.cons_append]
      exact .comment hnote (ih hend)
  | lastComment hnote => exact .comment hnote (.none k)

/-- A text with nothing to skip at its start. -/
def Bare (cs : List Char) : Prop :=
  ∀ c ∈ cs.head?, isBlank c = false ∧ c ≠ ';'

theorem bare_nil : Bare [] := by
  intro c hc
  cases hc

theorem bare_cons {c : Char} (hblank : isBlank c = false) (hcomment : c ≠ ';')
    (cs : List Char) : Bare (c :: cs) := by
  rintro _ ⟨⟩
  exact ⟨hblank, hcomment⟩

/-- Every text has a longest gap at its start. -/
theorem exists_gap (cs : List Char) : ∃ rest, Gap cs rest ∧ Bare rest := by
  induction hlength : cs.length using Nat.strongRecOn generalizing cs with
  | ind n ih =>
      subst hlength
      cases cs with
      | nil => exact ⟨[], .none [], bare_nil⟩
      | cons c cs =>
          by_cases hblank : isBlank c = true
          · obtain ⟨rest, hgap, hbare⟩ := ih cs.length (Nat.lt_succ_self _) cs rfl
            exact ⟨rest, .blank hblank hgap, hbare⟩
          · by_cases hcomment : c = ';'
            · subst hcomment
              by_cases hnewline : '\n' ∈ cs
              · obtain ⟨note, cs, rfl, hnote⟩ := List.eq_append_cons_of_mem hnewline
                obtain ⟨rest, hgap, hbare⟩ := ih cs.length (by simp; omega) cs rfl
                exact ⟨rest, .comment hnote hgap, hbare⟩
              · exact ⟨[], .lastComment hnewline, bare_nil⟩
            · exact ⟨c :: cs, .none _, bare_cons (by simpa using hblank) hcomment cs⟩

end Gap

/-! ### Phrases -/

section Phrases

variable {p : Phrase} {d : Datum} {ds : List Datum} {cs middle rest : List Char}

/-- A phrase takes at least one character for each datum in it. -/
theorem Denotes.length_le (h : Denotes p cs rest) : rest.length + p.count ≤ cs.length := by
  induction h with
  | boolean => simp [Phrase.count]
  | number hnonempty =>
      rw [List.length_append, Phrase.count, Nat.add_comm]
      exact Nat.add_le_add_right (List.length_pos_iff.mpr hnonempty) _
  | string =>
      simp only [Phrase.count, List.length_cons, List.length_append]
      omega
  | symbol hname =>
      rw [List.length_append, Phrase.count, Nat.add_comm]
      exact Nat.add_le_add_right (List.length_pos_iff.mpr hname.nonempty) _
  | list _ hclose ih =>
      have hlast := hclose.length_le
      simp only [Phrase.count, List.length_cons] at *
      omega
  | dotted _ _ hdot _ hstart _ hclose ihitems ihtail =>
      have hlast := hdot.length_le
      have hafter := hstart.length_le
      have hstop := hclose.length_le
      simp only [Phrase.count, List.length_cons] at *
      omega
  | noItems => exact Nat.le_refl _
  | item hgap _ _ _ ihd ihitems =>
      have hstart := hgap.length_le
      simp only [Phrase.count, List.length_cons] at *
      omega

theorem Denotes.length_lt (h : Denotes (.datum d) cs rest) : rest.length < cs.length :=
  h.length_le

/-- A phrase leaves the end of a text. -/
theorem Denotes.suffix (h : Denotes p cs rest) : rest <:+ cs := by
  induction h with
  | boolean => exact (List.suffix_cons _ _).trans (List.suffix_cons _ _)
  | number => exact List.suffix_append _ _
  | @string text rest =>
      have htext : rest <:+ text ++ '"' :: rest :=
        (List.suffix_cons _ _).trans (List.suffix_append _ _)
      exact htext.trans (List.suffix_cons _ _)
  | symbol => exact List.suffix_append _ _
  | list _ hclose ih =>
      exact (List.suffix_cons _ _).trans (hclose.suffix.trans (ih.trans (List.suffix_cons _ _)))
  | dotted _ _ hdot _ hstart _ hclose ihitems ihtail =>
      have hafter := (List.suffix_cons _ _).trans (hdot.suffix.trans ihitems)
      have hstop := ihtail.trans (hstart.suffix.trans hafter)
      exact (List.suffix_cons _ _).trans (hclose.suffix.trans (hstop.trans (List.suffix_cons _ _)))
  | noItems => exact List.suffix_rfl
  | item hgap _ _ _ ihd ihitems => exact ihitems.trans (ihd.trans hgap.suffix)

/-- A datum ends with a character that is no newline. -/
theorem Denotes.last (h : Denotes (.datum d) cs rest) :
    ∃ init c, cs = init ++ c :: rest ∧ c ≠ '\n' := by
  cases h with
  | boolean b => exact ⟨['#'], _, rfl, by cases b <;> decide⟩
  | @number digits _ hnonempty hdigits =>
      have hlast := hdigits _ (List.getLast_mem hnonempty)
      refine ⟨digits.dropLast, digits.getLast hnonempty, ?_, ?_⟩
      · rw [List.append_cons, List.dropLast_concat_getLast]
      · intro hnewline
        rw [hnewline] at hlast
        exact absurd hlast (by decide)
  | @string text => exact ⟨'"' :: text, '"', rfl, by decide⟩
  | @symbol name _ hname =>
      have hlast := hname.plain _ (List.getLast_mem hname.nonempty)
      refine ⟨name.dropLast, name.getLast hname.nonempty, ?_, ?_⟩
      · rw [List.append_cons, List.dropLast_concat_getLast]
      · intro hnewline
        rw [hnewline] at hlast
        exact absurd hlast (by decide)
  | list hitems hclose =>
      obtain ⟨init, hinit⟩ := hclose.suffix.trans hitems.suffix
      exact ⟨'(' :: init, ')', by rw [List.cons_append, hinit], by decide⟩
  | dotted _ hitems hdot _ hstart htail hclose =>
      have hafter := (List.suffix_cons _ _).trans (hdot.suffix.trans hitems.suffix)
      obtain ⟨init, hinit⟩ := hclose.suffix.trans (htail.suffix.trans (hstart.suffix.trans hafter))
      exact ⟨'(' :: init, ')', by rw [List.cons_append, hinit], by decide⟩

/-- A datum starts with a character that is neither skipped nor closes a list. -/
theorem Denotes.begins (h : Denotes (.datum d) cs rest) : ∃ c, Reader.Begins c cs ∧ c ≠ ')' := by
  cases h with
  | boolean => exact ⟨'#', ⟨rfl, rfl, by decide⟩, by decide⟩
  | @number digits _ hnonempty hdigits =>
      obtain ⟨c, digits, rfl⟩ := List.exists_cons_of_ne_nil hnonempty
      have hc : c.isDigit = true := hdigits c List.mem_cons_self
      refine ⟨c, ⟨rfl, isBlank_eq_false_of_isDigit hc, ?_⟩, ?_⟩
      all_goals
        rintro rfl
        exact absurd hc (by decide)
  | string => exact ⟨'"', ⟨rfl, rfl, by decide⟩, by decide⟩
  | @symbol name _ hname =>
      obtain ⟨c, name, rfl⟩ := List.exists_cons_of_ne_nil hname.nonempty
      have hc := hname.plain c List.mem_cons_self
      simp only [isDelimiter, Bool.or_eq_false_iff, beq_eq_false_iff_ne] at hc
      exact ⟨c, ⟨rfl, hc.2, hc.1.2⟩, hc.1.1.1.2⟩
  | list => exact ⟨'(', ⟨rfl, rfl, by decide⟩, by decide⟩
  | dotted => exact ⟨'(', ⟨rfl, rfl, by decide⟩, by decide⟩

theorem Denotes.bare (h : Denotes (.datum d) cs rest) : Bare cs := by
  obtain ⟨c, ⟨hhead, hblank, hcomment⟩, _⟩ := h.begins
  rw [Bare, hhead]
  rintro _ ⟨⟩
  exact ⟨hblank, hcomment⟩

/-- A list is no symbol. -/
theorem isSymbol_listWithTail {tail : Datum} (name : String) (h : ds ≠ [] ∨ tail = .nil) :
    (Datum.listWithTail ds tail).isSymbol name = false := by
  cases ds with
  | nil =>
      obtain rfl := h.resolve_left (fun hne => hne rfl)
      rfl
  | cons d ds => rfl

/-- Only a lone dot denotes the symbol `.`. -/
theorem Denotes.eq_dot (h : Denotes (.datum d) cs rest) (hdot : d.isSymbol "." = true) :
    cs = '.' :: rest ∧ Stops rest := by
  cases h with
  | @symbol name _ _ hrest =>
      have hname : String.ofList name = "." := by simpa [Datum.isSymbol] using hdot
      have hname : name = ['.'] := by simpa using congrArg String.toList hname
      exact ⟨by rw [hname, List.singleton_append], hrest⟩
  | list =>
      rw [isSymbol_listWithTail "." (Or.inr rfl)] at hdot
      cases hdot
  | dotted hnonempty =>
      rw [isSymbol_listWithTail "." (Or.inl hnonempty)] at hdot
      cases hdot
  | _ => cases hdot

/-- One more item. -/
theorem Denotes.snoc {start : List Char} (h : Denotes (.items ds) cs middle)
    (hgap : Gap middle start) (hd : Denotes (.datum d) start rest)
    (hdot : d.isSymbol "." = false) : Denotes (.items (ds ++ [d])) cs rest := by
  induction ds generalizing cs with
  | nil =>
      cases h
      exact .item hgap hd hdot (.noItems rest)
  | cons d' ds ih =>
      cases h with
      | item hgap' hd' hdot' hitems => exact .item hgap' hd' hdot' (ih hitems)

/-- What may follow the end of a text may follow its last line too. -/
theorem forall_head?_newline {P : Char → Prop} (h : ∀ c ∈ rest.head?, P c) (hnewline : P '\n')
    (k : List Char) : ∀ c ∈ (rest ++ '\n' :: k).head?, P c := by
  cases rest with
  | nil =>
      rintro _ ⟨⟩
      exact hnewline
  | cons c rest => exact h

/-- A newline and anything else behind a text do not change what its phrases denote. -/
theorem Denotes.newline (h : Denotes p cs rest) (k : List Char) :
    Denotes p (cs ++ '\n' :: k) (rest ++ '\n' :: k) := by
  induction h with
  | boolean b rest => exact .boolean b _
  | number hnonempty hdigits hrest =>
      rw [List.append_assoc]
      exact .number hnonempty hdigits (forall_head?_newline hrest rfl k)
  | string htext =>
      rw [List.cons_append, List.append_assoc, List.cons_append]
      exact .string htext
  | symbol hname hrest =>
      rw [List.append_assoc]
      exact .symbol hname (forall_head?_newline hrest rfl k)
  | list _ hclose ih => exact .list ih (hclose.append (List.cons_ne_nil _ _) _)
  | dotted hnonempty _ hdot hlone hstart htail hclose ihitems ihtail =>
      have hstart := hstart.append (List.length_pos_iff.mp (Nat.zero_lt_of_lt htail.length_lt))
        ('\n' :: k)
      exact .dotted hnonempty ihitems (hdot.append (List.cons_ne_nil _ _) _)
        (forall_head?_newline hlone rfl k) hstart ihtail (hclose.append (List.cons_ne_nil _ _) _)
  | noItems cs => exact .noItems _
  | item hgap hd hdot _ ihd ihitems =>
      have hgap := hgap.append (List.length_pos_iff.mp (Nat.zero_lt_of_lt hd.length_lt))
        ('\n' :: k)
      exact .item hgap ihd hdot ihitems

end Phrases

end TinyLisp.Text
