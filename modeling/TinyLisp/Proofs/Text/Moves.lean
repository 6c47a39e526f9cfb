import TinyLisp.Proofs.Text.Progress

/-!
The moves of a stream.  It hands out the characters of the line in use, and takes the next line, or
meets the end, only when none of them is left.  Main statement: `Advances.spelled`, the characters
handed out between two states are those that the lines taken in between hold.
-/

namespace TinyLisp.CharStream

/-- `Advances s cs t`: from `s` to `t` the characters `cs` were handed out, in this order.  Every
character of a line is handed out before the next line is taken. -/
inductive Advances : CharStream → List Char → CharStream → Prop where
  | refl (s) : Advances s [] s
  | take {s t c line cs} (hline : s.line.toList = c :: line)
      (h : Advances { s with line := s.line.tail } cs t) : Advances s (c :: cs) t
  | pull {s t line cs} (hbefore : s.exhausted = false) (hused : s.line.toList = [])
      (hunread : s.unread.toList ≠ [])
      (hdecode : decode? (splitLine s.unread.toList).1 = some line)
      (h : Advances { s with line := .ofList line, unread := (takeLine s.unread).2 } cs t) :
      Advances s cs t
  | finish {s t cs} (hused : s.line.toList = []) (hend : s.unread.toList = [])
      (h : Advances { s with exhausted := true } cs t) : Advances s cs t

/-- A line was taken that is no text, and is gone. -/
structure Drops (s t : CharStream) : Prop where
  before : s.exhausted = false
  used : s.line.toList = []
  unread : s.unread.toList ≠ []
  eq : t = { s with unread := (takeLine s.unread).2 }

/-- A scan kept pace: it advanced, or it advanced to a line that is no text, and complained. -/
def Paced {α : Type} (s : CharStream) (outcome : Except Error α × CharStream) : Prop :=
  (∃ cs, Advances s cs outcome.2) ∨
    outcome.1 = .error (.io .invalidText) ∧ ∃ cs t, Advances s cs t ∧ Drops t outcome.2

/-- A line that is left alone, or loses a character if it has any. -/
theorem advances_line (s : CharStream) {line : Counted Char}
    (h : line = s.line ∨ line = s.line.tail) : ∃ cs, Advances s cs { s with line := line } := by
  rcases h with rfl | rfl
  · exact ⟨[], .refl s⟩
  · cases hline : s.line.toList with
    | nil =>
        have htail : s.line.tail = s.line := Counted.eq_of_toList (by simp [hline])
        rw [htail]
        exact ⟨[], .refl s⟩
    | cons c line => exact ⟨[c], .take hline (.refl _)⟩

namespace Advances

variable {s t u : CharStream} {c : Char} {cs cs' line : List Char}

theorem trans (h : Advances s cs t) (h' : Advances t cs' u) : Advances s (cs ++ cs') u := by
  induction h with
  | refl => exact h'
  | take hline _ ih => exact .take hline (ih h')
  | pull hbefore hused hunread hdecode _ ih => exact .pull hbefore hused hunread hdecode (ih h')
  | finish hused hend _ ih => exact .finish hused hend (ih h')

/-- The way to some characters goes by way of the first of them. -/
theorem split (h : Advances s (cs ++ cs') u) : ∃ t, Advances s cs t ∧ Advances t cs' u := by
  generalize hall : cs ++ cs' = all at h
  induction h generalizing cs with
  | refl s =>
      obtain ⟨rfl, rfl⟩ := List.append_eq_nil_iff.mp hall
      exact ⟨s, .refl s, .refl s⟩
  | @take s u c line all hline h ih =>
      cases cs with
      | nil =>
          rw [List.nil_append] at hall
          subst hall
          exact ⟨s, .refl s, .take hline h⟩
      | cons d cs =>
          rw [List.cons_append, List.cons.injEq] at hall
          obtain ⟨rfl, hall⟩ := hall
          obtain ⟨t, hfirst, hsecond⟩ := ih hall
          exact ⟨t, .take hline hfirst, hsecond⟩
  | pull hbefore hused hunread hdecode _ ih =>
      obtain ⟨t, hfirst, hsecond⟩ := ih hall
      exact ⟨t, .pull hbefore hused hunread hdecode hfirst, hsecond⟩
  | finish hused hend _ ih =>
      obtain ⟨t, hfirst, hsecond⟩ := ih hall
      exact ⟨t, .finish hused hend hfirst, hsecond⟩

/-- When a character is handed out, it is the next one of the line in use. -/
theorem at_take (h : Advances s (c :: cs) u) :
    ∃ t line, Advances s [] t ∧ t.line.toList = c :: line ∧
      Advances { t with line := t.line.tail } cs u := by
  generalize hall : c :: cs = all at h
  induction h with
  | refl => cases hall
  | take hline h _ =>
      obtain ⟨rfl, rfl⟩ := List.cons.inj hall
      exact ⟨_, _, .refl _, hline, h⟩
  | pull hbefore hused hunread hdecode _ ih =>
      obtain ⟨t, line, hfirst, hline, hsecond⟩ := ih hall
      exact ⟨t, line, .pull hbefore hused hunread hdecode hfirst, hline, hsecond⟩
  | finish hused hend _ ih =>
      obtain ⟨t, line, hfirst, hline, hsecond⟩ := ih hall
      exact ⟨t, line, .finish hused hend hfirst, hline, hsecond⟩

/-- While nothing is handed out, a line is taken only if none was in use and there is one. -/
theorem of_nil (h : Advances s cs t) (hnone : cs = []) :
    (t.line.toList = s.line.toList ∧ t.unread = s.unread) ∨
      s.line.toList = [] ∧ s.unread.toList ≠ [] := by
  induction h with
  | refl => exact .inl ⟨rfl, rfl⟩
  | take => cases hnone
  | pull _ hused hunread => exact .inr ⟨hused, hunread⟩
  | finish _ _ _ ih => exact ih hnone

/-- The characters handed out, and those left of the line in use, are those of the lines. -/
theorem spelled (h : Advances s cs t) :
    ∃ later, s.line.toList ++ later = cs ++ t.line.toList ∧
      s.unread.toList = later.flatMap String.utf8EncodeChar ++ t.unread.toList := by
  induction h with
  | refl s => exact ⟨[], List.append_nil _, rfl⟩
  | take hline _ ih =>
      obtain ⟨later, hchars, hunread⟩ := ih
      refine ⟨later, ?_, hunread⟩
      rw [Counted.toList_tail, hline, List.tail_cons] at hchars
      rw [hline, List.cons_append, List.cons_append, hchars]
  | @pull s t line cs _ hused _ hdecode _ ih =>
      obtain ⟨later, hchars, hunread⟩ := ih
      refine ⟨line ++ later, by rw [hused]; exact hchars, ?_⟩
      change (splitLine s.unread.toList).2 = _ at hunread
      rw [List.flatMap_append, encoded_of_decode? hdecode, List.append_assoc, ← hunread,
        splitLine_append]
  | finish _ _ _ ih => exact ih

theorem suffix (h : Advances s cs t) : t.unread.toList <:+ s.unread.toList := by
  obtain ⟨later, _, hunread⟩ := h.spelled
  exact ⟨_, hunread.symm⟩

theorem exhausted (h : Advances s cs t) (hs : s.exhausted = true) : t.exhausted = true := by
  induction h with
  | refl => exact hs
  | take _ _ ih => exact ih hs
  | pull _ _ _ _ _ ih => exact ih hs
  | finish _ _ _ ih => exact ih rfl

/-- The end, if it was not met before, is met when nothing is left. -/
theorem ends (h : Advances s cs t) (ht : t.exhausted = true) :
    (s.exhausted = true ∧ s.line.toList = cs ++ t.line.toList ∧ s.unread = t.unread) ∨
      t.line.toList = [] ∧ t.unread.toList = [] := by
  induction h with
  | refl => exact .inl ⟨ht, rfl, rfl⟩
  | take hline _ ih =>
      rcases ih ht with ⟨hs, hchars, hunread⟩ | hnothing
      · rw [Counted.toList_tail, hline, List.tail_cons] at hchars
        exact .inl ⟨hs, by rw [hline, hchars, List.cons_append], hunread⟩
      · exact .inr hnothing
  | pull hbefore _ _ _ _ ih =>
      rcases ih ht with ⟨hs, _⟩ | hnothing
      · exact absurd (hbefore.symm.trans hs) Bool.false_ne_true
      · exact .inr hnothing
  | finish hused hend _ ih =>
      rcases ih ht with ⟨_, hchars, hunread⟩ | hnothing
      · refine .inr ⟨(List.append_eq_nil_iff.mp (hchars.symm.trans hused)).2, ?_⟩
        rw [← hunread, hend]
      · exact .inr hnothing

/-- What keeps pace behind an advance kept pace all the way. -/
theorem paced {α : Type} {outcome : Except Error α × CharStream} (h : Advances s cs t)
    (houtcome : t.Paced outcome) : s.Paced outcome := by
  rcases houtcome with ⟨cs', h'⟩ | ⟨herror, cs', u, h', hdrops⟩
  · exact .inl ⟨cs ++ cs', h.trans h'⟩
  · exact .inr ⟨herror, cs ++ cs', u, h.trans h', hdrops⟩

end Advances

/-- The end, if it was met, is behind the last byte. -/
def Coherent (s : CharStream) : Prop :=
  s.exhausted = true → s.unread.toList = []

theorem coherent_ofBytes (bytes : List UInt8) : (ofBytes bytes).Coherent :=
  fun h => absurd h Bool.false_ne_true

namespace Paced

variable {α : Type} {outcome : Except Error α × CharStream} {s : CharStream}

theorem suffix (h : s.Paced outcome) : outcome.2.unread.toList <:+ s.unread.toList := by
  rcases h with ⟨cs, h⟩ | ⟨_, cs, t, h, ⟨_, _, _, hdropped⟩⟩
  · exact h.suffix
  · rw [hdropped]
    exact List.IsSuffix.trans ⟨_, splitLine_append t.unread.toList⟩ h.suffix

theorem exhausted (h : s.Paced outcome) (hs : s.exhausted = true) : outcome.2.exhausted = true := by
  rcases h with ⟨cs, h⟩ | ⟨_, cs, t, h, ⟨hbefore, _⟩⟩
  · exact h.exhausted hs
  · exact absurd (hbefore.symm.trans (h.exhausted hs)) Bool.false_ne_true

theorem ends (h : s.Paced outcome) (hend : outcome.2.exhausted = true) :
    (s.exhausted = true ∧ outcome.2.line.toList <:+ s.line.toList ∧ s.unread = outcome.2.unread) ∨
      outcome.2.line.toList = [] ∧ outcome.2.unread.toList = [] := by
  rcases h with ⟨cs, h⟩ | ⟨_, cs, t, h, ⟨hbefore, _, _, hdropped⟩⟩
  · exact (h.ends hend).imp_left fun ⟨hs, hchars, hunread⟩ => ⟨hs, ⟨cs, hchars.symm⟩, hunread⟩
  · rw [hdropped] at hend
    exact absurd (hbefore.symm.trans hend) Bool.false_ne_true

theorem coherent (h : s.Paced outcome) (hs : s.Coherent) : outcome.2.Coherent := by
  intro hend
  rcases h.ends hend with ⟨hbefore, _, hunread⟩ | ⟨_, hnothing⟩
  · rw [← hunread]
    exact hs hbefore
  · exact hnothing

/-- The end is only met when nothing of the line in use is left. -/
theorem ended (h : s.Paced outcome) (hs : s.exhausted = true → s.Ended)
    (hend : outcome.2.exhausted = true) : outcome.2.Ended := by
  refine ⟨?_, hend⟩
  rcases h.ends hend with ⟨hbefore, hline, _⟩ | ⟨hnothing, _⟩
  · rw [(hs hbefore).line] at hline
    exact List.suffix_nil.mp hline
  · exact hnothing

end Paced

end TinyLisp.CharStream
