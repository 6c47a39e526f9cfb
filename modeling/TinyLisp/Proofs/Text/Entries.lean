import TinyLisp.Proofs.Text.Stream

/-!
Where data are read.  The function for data is called only where a datum may start, so that those of
its branches that deal with anything else are never taken.  That is said of the reader as it is when
every call of that function is made through another one: it does not matter what is done where no
datum may start.  Main statement: `defensive_branches_dead`, after any sequence of calls.
-/

namespace TinyLisp

open CharStream Reader Scan Text

variable {α β : Type} {s t u : CharStream} {c : Char} {o : Option Char} {bound : Nat}

/-- What comes after answers that are the same is the same. -/
theorem Scan.bind_congr_of_ok {m : Scan α} {f g : α → Scan β}
    (h : ∀ a t, m s = (.ok a, t) → f a t = g a t) : (m >>= f) s = (m >>= g) s := by
  rw [bind_apply, bind_apply]
  revert h
  rcases m s with ⟨_ | a, t⟩ <;> intro h
  · rfl
  · exact h a t rfl

/-! ### Up to the next datum -/

namespace CharStream

/-- The character handed out first is the next one of the line in use, if there is one. -/
theorem Advances.eq_head {cs : List Char} (h : Advances s (c :: cs) t) {d : Char}
    (hhead : s.line.toList.head? = some d) : c = d := by
  cases h with
  | take hline _ =>
      rw [hline] at hhead
      exact Option.some.inj hhead
  | pull _ hused _ _ _ | finish hused _ _ =>
      rw [hused] at hhead
      cases hhead

theorem advances_peek (h : peek s = (.ok o, t)) : Advances s [] t := by
  obtain ⟨_, u, hfill, hseen⟩ := exists_of_bind_ok h
  cases hseen
  rcases fill_cases s with ⟨_, hfill', hadvances⟩ | ⟨_, hfill', _⟩
  all_goals cases hfill.symm.trans hfill'
  exact hadvances

theorem advances_next (h : next s = (.ok (some c), t)) : Advances s [c] t := by
  obtain ⟨u, hpeek, rfl⟩ := exists_peek_of_next h
  obtain ⟨line, hline⟩ := List.head?_eq_some_iff.mp (peek_of_peek hpeek).1
  exact (advances_peek hpeek).trans (.take hline (.refl _))

end CharStream

namespace Reader

/-- What is skipped as a comment ends with its newline, or with everything. -/
theorem advances_skipComment (h : skipComment bound s = (.ok (), t)) :
    t.Ended ∨ ∃ note, '\n' ∉ note ∧ Advances s (note ++ ['\n']) t := by
  induction bound generalizing s with
  | zero => cases h
  | succ bound ih =>
      rw [skipComment] at h
      obtain ⟨o, u, hnext, h⟩ := exists_of_bind_ok h
      cases o with
      | none =>
          cases h
          exact .inl (ended_of_none (.inr hnext))
      | some c =>
          have hfirst := advances_next hnext
          dsimp only at h
          split at h
          · next hnewline =>
              cases h
              exact .inr ⟨[], List.not_mem_nil, hnewline ▸ hfirst⟩
          · next hother =>
              rcases ih h with hended | ⟨note, hnote, hlater⟩
              · exact .inl hended
              · refine .inr ⟨c :: note, ?_, hfirst.trans hlater⟩
                exact List.not_mem_cons_of_ne_of_not_mem (Ne.symm hother) hnote

theorem skipAtmosphere_of_ended (h : s.Ended) : skipAtmosphere bound s ≠ (.ok (some c), t) := by
  intro hskip
  cases bound with
  | zero => cases hskip
  | succ bound =>
      rw [skipAtmosphere, bind_apply, h.peek] at hskip
      cases hskip

/-- Blanks and comments are skipped, and the character behind them is left. -/
theorem advances_skipAtmosphere (h : skipAtmosphere bound s = (.ok (some c), t)) :
    Facing (some c) t ∧ ∃ gap, Advances s gap t ∧ ∀ rest, Gap (gap ++ rest) rest := by
  induction bound generalizing s with
  | zero => cases h
  | succ bound ih =>
      rw [skipAtmosphere] at h
      obtain ⟨o, u, hpeek, h⟩ := exists_of_bind_ok h
      cases o with
      | none => cases h
      | some d =>
          have hseen := (peek_of_peek hpeek).1
          have hfirst := advances_peek hpeek
          dsimp only at h
          split at h
          · next hcomment =>
              obtain ⟨_, v, hskip, h⟩ := exists_of_bind_ok h
              rcases advances_skipComment hskip with hended | ⟨note, hnote, hsecond⟩
              · exact absurd h (skipAtmosphere_of_ended hended)
              obtain ⟨hfacing, gap, hthird, hgap⟩ := ih h
              refine ⟨hfacing, note ++ ['\n'] ++ gap, hfirst.trans (hsecond.trans hthird), ?_⟩
              intro rest
              -- The comment starts with the semicolon that was seen.
              cases note with
              | nil => exact absurd ((hsecond.eq_head hseen).trans hcomment) (by decide)
              | cons e note =>
                  obtain rfl : e = ';' := (hsecond.eq_head hseen).trans hcomment
                  rw [List.append_assoc, List.append_assoc]
                  exact .comment (List.not_mem_of_not_mem_cons hnote) (hgap rest)
          · split at h
            · next hblank =>
                obtain ⟨_, v, hnext, h⟩ := exists_of_bind_ok h
                rw [next_of_peek (peek_of_head? hseen)] at hnext
                cases hnext
                obtain ⟨hfacing, gap, hlater, hgap⟩ := ih h
                obtain ⟨line, hline⟩ := List.head?_eq_some_iff.mp hseen
                exact ⟨hfacing, d :: gap, hfirst.trans (.take hline hlater),
                  fun rest => .blank hblank (hgap rest)⟩
            · next hcomment hblank =>
                cases h
                exact ⟨⟨hseen, by simpa using hblank, hcomment⟩, [], hfirst, .none⟩

/-! ### Calls made through another function -/

/-- Whether a datum may start here: the next character is there, it is no blank, it starts no
comment, and it closes no list. -/
def startsDatum (s : CharStream) : Bool :=
  s.line.toList.head?.any fun c => !(isBlank c || c == ';' || c == ')')

theorem startsDatum_iff : startsDatum s = true ↔ ∃ c, Facing (some c) s ∧ c ≠ ')' := by
  simp [startsDatum, Facing, Option.any_eq_true, and_assoc]

/-- The three functions for data within one bound. -/
structure Functions where
  datum : Scan Datum
  items : List Datum → Scan Datum
  dottedTail : Scan Datum

namespace Functions

/-- A datum, given the functions within the bound below. -/
def datumStep (bound : Nat) (f : Functions) : Scan Datum := do
  match ← peek with
  | none => throw (.malformed .unexpectedEnd)
  | some c =>
      if c = '#' then boolean
      else if c = '"' then string bound
      else if c = '(' then
        let _ ← next
        f.items []
      else if c = ')' then throw (.malformed .unmatchedClose)
      else if c.isDigit then number bound
      else symbol bound

/-- The items of a list, given the functions within the bound below. -/
def itemsStep (bound : Nat) (f : Functions) (read : List Datum) : Scan Datum := do
  match ← skipAtmosphere bound with
  | none => throw (.malformed .unmatchedOpen)
  | some c =>
      if c = ')' then
        let _ ← next
        return .ofReversed read .nil
      else
        let d ← f.datum
        if d.isSymbol "." then
          if read.isEmpty then throw (.malformed .dotAtStart)
          else return .ofReversed read (← f.dottedTail)
        else
          f.items (d :: read)

/-- What follows a dot, given the functions within the bound below. -/
def dottedTailStep (bound : Nat) (f : Functions) : Scan Datum := do
  match ← skipAtmosphere bound with
  | none => throw (.malformed .unmatchedOpen)
  | some c =>
      if c = ')' then throw (.malformed .missingAfterDot)
      else closeDotted bound (← f.datum)

/-- The functions of the reader, when every call for a datum is made through `enter`. -/
def through (enter : Scan Datum → Scan Datum) : Nat → Functions
  | 0 =>
      ⟨enter (throw (.malformed .unexpectedEnd)), fun _ => throw (.malformed .unexpectedEnd),
        throw (.malformed .unexpectedEnd)⟩
  | bound + 1 =>
      let f := through enter bound
      ⟨enter (f.datumStep bound), f.itemsStep bound, f.dottedTailStep bound⟩

end Functions

/-- A call of the reader, when every call for a datum is made through `enter`. -/
def readDatumThrough (enter : Scan Datum → Scan Datum) : Scan (Option Datum) := do
  let bound := boundFor (← get)
  match ← skipAtmosphere bound with
  | none => return none
  | some c =>
      if c = ')' then
        let _ ← next
        throw (.malformed .unmatchedClose)
      else
        return some (← (Functions.through enter bound).datum)

/-- Does something else where no datum may start. -/
def detour (other m : Scan Datum) : Scan Datum := do
  if startsDatum (← get) then m else other

/-! ### Where data are read -/

theorem startsDatum_of_skipAtmosphere (h : skipAtmosphere bound s = (.ok (some c), t))
    (hclose : c ≠ ')') : startsDatum t = true :=
  startsDatum_iff.mpr ⟨c, (advances_skipAtmosphere h).1, hclose⟩

namespace Functions

theorem through_id (bound : Nat) :
    through id bound = ⟨Reader.datum bound, Reader.items bound, Reader.dottedTail bound⟩ := by
  induction bound with
  | zero => rfl
  | succ bound ih =>
      rw [through, ih]
      rfl

/-- Functions that cannot be told apart by calling for data where data may start. -/
structure Agree (f g : Functions) : Prop where
  datum : ∀ s, startsDatum s = true → f.datum s = g.datum s
  items : f.items = g.items
  dottedTail : f.dottedTail = g.dottedTail

namespace Agree

variable {f g : Functions}

theorem bind_datum (h : Agree f g) (hskip : skipAtmosphere bound s = (.ok (some c), t))
    (hclose : c ≠ ')') (k : Datum → Scan α) : (f.datum >>= k) t = (g.datum >>= k) t := by
  rw [bind_apply, bind_apply, h.datum t (startsDatum_of_skipAtmosphere hskip hclose)]

theorem datumStep (h : Agree f g) (bound : Nat) : f.datumStep bound = g.datumStep bound := by
  simp only [Functions.datumStep, h.items]

theorem itemsStep (h : Agree f g) (bound : Nat) : f.itemsStep bound = g.itemsStep bound := by
  funext read s
  simp only [Functions.itemsStep, h.items, h.dottedTail]
  refine bind_congr_of_ok fun o t hskip => ?_
  cases o with
  | none => rfl
  | some c =>
      by_cases hclose : c = ')'
      · simp only [if_pos hclose]
      · simp only [if_neg hclose]
        exact h.bind_datum hskip hclose _

theorem dottedTailStep (h : Agree f g) (bound : Nat) :
    f.dottedTailStep bound = g.dottedTailStep bound := by
  funext s
  refine bind_congr_of_ok fun o t hskip => ?_
  cases o with
  | none => rfl
  | some c =>
      by_cases hclose : c = ')'
      · simp only [if_pos hclose]
      · simp only [if_neg hclose]
        exact h.bind_datum hskip hclose _

end Agree

/-- By induction on the bound: a detour is never taken. -/
theorem through_detour (other : Scan Datum) (bound : Nat) :
    Agree (through (detour other) bound) (through id bound) := by
  have hdetour (m : Scan Datum) (s : CharStream) (hs : startsDatum s = true) :
      detour other m s = m s := by
    rw [detour, bind_apply, get_apply]
    simp only [hs, if_true]
  induction bound with
  | zero => exact ⟨fun s hs => hdetour _ s hs, rfl, rfl⟩
  | succ bound ih =>
      refine ⟨fun s hs => ?_, ih.itemsStep bound, ih.dottedTailStep bound⟩
      rw [through, through, ih.datumStep bound]
      exact hdetour _ s hs

end Functions

theorem readDatumThrough_id : readDatumThrough id = readDatum := by
  simp only [readDatumThrough, Functions.through_id]
  rfl

theorem readDatumThrough_detour (other : Scan Datum) :
    readDatumThrough (detour other) = readDatumThrough id := by
  funext s
  refine bind_congr_of_ok fun s _ _ => bind_congr_of_ok fun o t hskip => ?_
  cases o with
  | none => rfl
  | some c =>
      by_cases hclose : c = ')'
      · simp only [if_pos hclose]
      · simp only [if_neg hclose]
        exact (Functions.through_detour other _).bind_datum hskip hclose _

end Reader

/-! ### Parentheses that close nothing -/

/-- From here a scan does not complain of an unmatched closing parenthesis. -/
def Scan.Spares (m : Scan α) (s : CharStream) : Prop :=
  (m s).1 ≠ .error (.malformed .unmatchedClose)

namespace Scan.Spares

theorem pure (a : α) (s : CharStream) : Spares (Pure.pure a) s := by
  intro heq
  cases heq

theorem throw {e : Error} (h : e ≠ .malformed .unmatchedClose) (s : CharStream) :
    Spares (MonadExcept.throw e : Scan α) s :=
  fun heq => h (Except.error.inj heq)

theorem bind {m : Scan α} {f : α → Scan β} (hm : Spares m s)
    (hf : ∀ a t, m s = (.ok a, t) → Spares (f a) t) : Spares (m >>= f) s := by
  unfold Spares at hm ⊢
  rw [bind_apply]
  revert hm hf
  rcases m s with ⟨e | a, t⟩ <;> intro hm hf
  · exact fun heq => hm (congrArg _ (Except.error.inj heq))
  · exact hf a t rfl

end Scan.Spares

namespace CharStream

theorem spares_peek (s : CharStream) : Spares peek s := by
  refine Spares.bind (fun hclose => ?_) fun _ t _ => .pure _ t
  rcases fill_cases s with ⟨_, hfill, _⟩ | ⟨_, hfill, _⟩
  all_goals
    rw [hfill] at hclose
    cases hclose

theorem spares_next (s : CharStream) : Spares next s :=
  (spares_peek s).bind fun o t _ => .pure o t

end CharStream

namespace Reader

theorem compositional_spares : Compositional fun m => ∀ s, Spares m s where
  pure := .pure
  throw := .throw
  bind hm hf s := (hm s).bind fun a t _ => hf a t
  peek := spares_peek
  next := spares_next

/-- Where a datum may start, no parenthesis in it closes nothing: what closes a list is taken by the
function for its items. -/
theorem spares_data (bound : Nat) :
    (∀ s, startsDatum s = true → Spares (datum bound) s) ∧
      (∀ read s, Spares (items bound read) s) ∧ ∀ s, Spares (dottedTail bound) s := by
  have hscans := compositional_spares
  induction bound with
  | zero =>
      have hbound : ∀ s, Spares (throw (.malformed .unexpectedEnd) : Scan Datum) s :=
        hscans.throw (by simp)
      exact ⟨fun s _ => hbound s, fun _ => hbound, hbound⟩
  | succ bound ih =>
      obtain ⟨hdatum, hitems, htail⟩ := ih
      refine ⟨fun s hstarts => ?_, fun read s => ?_, fun s => ?_⟩
      · obtain ⟨c, ⟨hhead, _, _⟩, hclose⟩ := startsDatum_iff.mp hstarts
        rw [datum]
        refine (spares_peek s).bind fun o t hpeek => ?_
        cases (peek_of_head? hhead).symm.trans hpeek
        simp only [if_neg hclose]
        have hlist := hscans.bind spares_next fun _ => hitems []
        refine hscans.ite hscans.boolean (hscans.ite (hscans.string bound) ?_) s
        exact hscans.ite hlist (hscans.ite (hscans.number bound) (hscans.symbol bound))
      · rw [items]
        refine (hscans.skipAtmosphere bound s).bind fun o t hskip => ?_
        cases o with
        | none => exact .throw (by simp) t
        | some c =>
            by_cases hclose : c = ')'
            · simp only [if_pos hclose]
              exact (spares_next t).bind fun _ u _ => .pure _ u
            · simp only [if_neg hclose]
              refine (hdatum t (startsDatum_of_skipAtmosphere hskip hclose)).bind fun d u _ => ?_
              have hdotted := hscans.bind htail fun tail => .pure (Datum.ofReversed read tail)
              exact hscans.ite (hscans.ite (.throw (by simp)) hdotted) (hitems (d :: read)) u
      · rw [dottedTail]
        refine (hscans.skipAtmosphere bound s).bind fun o t hskip => ?_
        cases o with
        | none => exact .throw (by simp) t
        | some c =>
            by_cases hclose : c = ')'
            · simp only [if_pos hclose]
              exact .throw (by simp) t
            · simp only [if_neg hclose]
              have hstarts := startsDatum_of_skipAtmosphere hskip hclose
              exact (hdatum t hstarts).bind fun d u _ => hscans.closeDotted bound d u

/-- A closing parenthesis in the place of a datum is complained about, and taken. -/
theorem topLevel_of_close (h : skipAtmosphere bound s = (.ok (some ')'), u)) :
    topLevel bound s =
      (.error (.malformed .unmatchedClose), { u with line := u.line.tail }) := by
  have hhead := (advances_skipAtmosphere h).1.1
  rw [topLevel, bind_apply, h]
  simp only [if_true]
  rw [bind_apply, next_of_peek (peek_of_head? hhead)]
  rfl

theorem spares_topLevel (h : ∀ u, skipAtmosphere bound s ≠ (.ok (some ')'), u)) :
    Spares (topLevel bound) s := by
  refine (compositional_spares.skipAtmosphere bound s).bind fun o u hskip => ?_
  cases o with
  | none => exact .pure none u
  | some c =>
      have hclose : c ≠ ')' := by
        rintro rfl
        exact h u hskip
      simp only [if_neg hclose]
      have hstarts := startsDatum_of_skipAtmosphere hskip hclose
      exact ((spares_data bound).1 u hstarts).bind fun d v _ => .pure (some d) v

/-- The closing parentheses that are complained about are those in the place of a datum. -/
theorem readDatum_unmatchedClose_iff :
    readDatum s = (.error (.malformed .unmatchedClose), t) ↔
      ∃ u, skipAtmosphere (boundFor s) s = (.ok (some ')'), u) ∧
        t = { u with line := u.line.tail } := by
  rw [readDatum_apply]
  constructor
  · intro h
    obtain ⟨u, hskip⟩ : ∃ u, skipAtmosphere (boundFor s) s = (.ok (some ')'), u) := by
      refine Classical.byContradiction fun hnone => ?_
      exact spares_topLevel (not_exists.mp hnone) (congrArg Prod.fst h)
    rw [topLevel_of_close hskip] at h
    cases h
    exact ⟨u, hskip, rfl⟩
  · rintro ⟨u, hskip, rfl⟩
    exact topLevel_of_close hskip

/-- What is complained about is not that a name or what is left of the text is empty, or that digits
are no number. -/
theorem readDatum_malformed {cause : SyntaxError}
    (h : readDatum s = (.error (.malformed cause), t)) :
    cause ≠ .emptySymbol ∧ cause ≠ .unexpectedEnd ∧ ∀ digits, cause ≠ .malformedNumber digits := by
  rcases readDatum_cases s with ⟨_, hrun, _⟩ | ⟨_, _, hrun, _⟩ | ⟨_, _, hrun, he, _⟩
  all_goals cases hrun.symm.trans h
  cases he with
  | malformed hend hname hdigits => exact ⟨hname, hend, hdigits⟩

/-- After any calls reading complains neither of an empty name nor of an unexpected end nor of
digits that are no number.  A datum is only called for where one may start, whatever would be done
elsewhere; so a closing parenthesis is complained about only in the place of a datum at top level,
with nothing but blanks and comments in front of it, and it is taken. -/
theorem defensive_branches_dead (bytes : List UInt8) (calls : List ReaderCall) :
    let s := (ofBytes bytes).after calls
    (∀ cause t, readDatum s = (.error (.malformed cause), t) →
      cause ≠ .emptySymbol ∧ cause ≠ .unexpectedEnd ∧ ∀ digits, cause ≠ .malformedNumber digits) ∧
    (readDatumThrough id s = readDatum s ∧
      ∀ other, readDatumThrough (detour other) s = readDatum s) ∧
    ∀ t, readDatum s = (.error (.malformed .unmatchedClose), t) →
      ∃ gap u, Advances s gap u ∧ (∀ rest, Gap (gap ++ rest) rest) ∧
        u.line.toList.head? = some ')' ∧ t = { u with line := u.line.tail } := by
  intro s
  refine ⟨fun cause t => readDatum_malformed, ⟨?_, fun other => ?_⟩, fun t h => ?_⟩
  · rw [readDatumThrough_id]
  · rw [readDatumThrough_detour, readDatumThrough_id]
  · obtain ⟨u, hskip, rfl⟩ := readDatum_unmatchedClose_iff.mp h
    obtain ⟨⟨hhead, _, _⟩, gap, hadvances, hgap⟩ := advances_skipAtmosphere hskip
    exact ⟨gap, u, hadvances, hgap, hhead, rfl⟩

/-- In `( .; x`, ` ) b`, on a line each, reading fails at the dot; the next call comes to the
parenthesis behind the comment, and takes it. -/
theorem defensive_branches_dead_failure :
    let s := (ofBytes [40, 32, 46, 59, 32, 120, 10, 32, 41, 32, 98]).after [.read]
    let t : CharStream := ⟨.ofList [' ', 'b'], .ofList [], false⟩
    readDatum s = (.error (.malformed .unmatchedClose), t) ∧
      SyntaxError.unmatchedClose ≠ .emptySymbol ∧
      ∃ gap u, Advances s gap u ∧ (∀ rest, Gap (gap ++ rest) rest) ∧
        u.line.toList.head? = some ')' ∧ t = { u with line := u.line.tail } := by
  have hstart : (ofBytes [40, 32, 46, 59, 32, 120, 10, 32, 41, 32, 98]).after [.read] =
      ⟨.ofList [';', ' ', 'x', '\n'], .ofList [32, 41, 32, 98], false⟩ := by rfl
  intro s t
  have hs : s = ⟨.ofList [';', ' ', 'x', '\n'], .ofList [32, 41, 32, 98], false⟩ := hstart
  have hrun : readDatum s = (.error (.malformed .unmatchedClose), t) := by
    rw [hs]
    rfl
  obtain ⟨hcauses, _, hclose⟩ :=
    defensive_branches_dead [40, 32, 46, 59, 32, 120, 10, 32, 41, 32, 98] [.read]
  exact ⟨hrun, (hcauses _ t hrun).1, hclose t hrun⟩

end Reader

end TinyLisp
