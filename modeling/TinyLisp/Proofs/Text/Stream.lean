import TinyLisp.Proofs.Text.LineDiscipline

/-!
What a stream is to those who ask it for characters: the characters left of a line, and the lines
below it.  Main statement: `stream_is_page`, for every sequence of calls; what a single call comes
to is said in `page_respond`.
-/

namespace TinyLisp

open CharStream Scan

/-! ### Calls for characters -/

/-- What a stream of characters can be asked for: to show the next character, to hand it out, or to
drop what is left of the line in use. -/
inductive StreamCall where
  | peek
  | next
  | skipLine
  deriving DecidableEq, Repr

/-- What calls are made to: what a call answers, if it is one that answers, and what it leaves. -/
abbrev Responder (σ : Type) :=
  σ → StreamCall → Option (Except Error (Option Char)) × σ

namespace Responder

variable {σ : Type}

/-- What some calls leave. -/
def after (respond : Responder σ) (s : σ) (calls : List StreamCall) : σ :=
  calls.foldl (fun t c => (respond t c).2) s

/-- What some calls answer. -/
def answers (respond : Responder σ) (s : σ) :
    List StreamCall → List (Option (Except Error (Option Char)))
  | [] => []
  | c :: calls => (respond s c).1 :: answers respond (respond s c).2 calls

end Responder

/-! ### Lines below a line -/

/-- The characters left of the line in use, and the lines below it. -/
structure Page where
  line : List Char
  below : List (List UInt8)
  deriving DecidableEq, Repr

namespace Page

/-- A page of which nothing is read yet. -/
def ofBytes (bytes : List UInt8) : Page :=
  ⟨[], byteLines bytes⟩

/-- Moves on to the next line, if there is one and the line in use is used up.  A line that is no
text is dropped. -/
def turn (p : Page) : Except Error Unit × Page :=
  match p with
  | ⟨[], bytes :: below⟩ =>
      match decode? bytes with
      | some line => (.ok (), ⟨line, below⟩)
      | none => (.error (.io .invalidText), ⟨[], below⟩)
  | _ => (.ok (), p)

def peek (p : Page) : Except Error (Option Char) × Page :=
  match p.turn with
  | (.error e, q) => (.error e, q)
  | (.ok (), q) => (.ok q.line.head?, q)

def next (p : Page) : Except Error (Option Char) × Page :=
  match p.turn with
  | (.error e, q) => (.error e, q)
  | (.ok (), q) => (.ok q.line.head?, { q with line := q.line.tail })

def skipLine (p : Page) : Page :=
  { p with line := [] }

def respond : Responder Page
  | p, .peek => (some p.peek.1, p.peek.2)
  | p, .next => (some p.next.1, p.next.2)
  | p, .skipLine => (none, p.skipLine)

end Page

namespace CharStream

def respond : Responder CharStream
  | s, .peek => (some (peek s).1, (peek s).2)
  | s, .next => (some (next s).1, (next s).2)
  | s, .skipLine => (none, s.skipLine)

/-- The page that a stream stands for. -/
def page (s : CharStream) : Page :=
  ⟨s.line.toList, byteLines s.unread.toList⟩

variable {s t : CharStream} {cs : List Char} {o : Option Char}

/-! ### A call -/

theorem page_turn (h : s.Coherent) : s.page.turn = ((fill s).1, (fill s).2.page) := by
  rw [fill_apply]
  cases hline : s.line.toList with
  | cons c line => simp [page, Page.turn, hline]
  | nil =>
      by_cases hunread : s.unread.toList = []
      · cases hend : s.exhausted <;> simp [page, Page.turn, hline, hunread, byteLines]
      · have hbefore : s.exhausted = false := by
          rw [← Bool.not_eq_true]
          exact fun hend => hunread (h hend)
        have hbelow := byteLines_eq_cons hunread
        have hrest : (takeLine s.unread).2.toList = (splitLine s.unread.toList).2 := rfl
        cases hdecode : decode? (splitLine s.unread.toList).1 <;>
          simp [page, Page.turn, hline, hunread, hbefore, hbelow, hrest, hdecode]

theorem page_peek (h : s.Coherent) : s.page.peek = ((peek s).1, (peek s).2.page) := by
  rw [Page.peek, page_turn h, peek, bind_apply]
  rcases fill s with ⟨_ | _, t⟩ <;> rfl

theorem page_next (h : s.Coherent) : s.page.next = ((next s).1, (next s).2.page) := by
  rw [Page.next, page_turn h, next, bind_apply, peek, bind_apply]
  rcases fill s with ⟨_ | _, t⟩ <;> rfl

theorem coherent_respond (h : s.Coherent) (c : StreamCall) : (s.respond c).2.Coherent := by
  cases c with
  | peek => exact (local_peek.paced s).coherent h
  | next => exact (local_next.paced s).coherent h
  | skipLine => exact h

/-- A call comes to the same on a stream and on the page it stands for. -/
theorem page_respond (h : s.Coherent) (c : StreamCall) :
    s.page.respond c = ((s.respond c).1, (s.respond c).2.page) := by
  cases c with
  | peek => rw [Page.respond, page_peek h, respond]
  | next => rw [Page.respond, page_next h, respond]
  | skipLine => rfl

/-- So do calls that are made one after the other. -/
theorem answers_page (h : s.Coherent) (calls : List StreamCall) :
    Responder.answers respond s calls = Responder.answers Page.respond s.page calls := by
  induction calls generalizing s with
  | nil => rfl
  | cons c calls ih =>
      rw [Responder.answers, Responder.answers, page_respond h, ih (coherent_respond h c)]

/-! ### Valid text -/

/-- A line is not skipped, so what is left are the characters that were not handed out. -/
theorem Spells.after (h : s.Spells cs) {calls : List StreamCall} (hcalls : .skipLine ∉ calls) :
    (Responder.after respond s calls).Spells (cs.drop (calls.count .next)) := by
  induction calls generalizing s cs with
  | nil => exact h
  | cons c calls ih =>
      rw [List.mem_cons, not_or] at hcalls
      obtain ⟨hc, hcalls⟩ := hcalls
      rw [Responder.after, List.foldl_cons]
      cases c with
      | peek =>
          obtain ⟨t, hpeek, ht⟩ := reads_peek cs s h
          rw [respond, hpeek, List.count_cons_of_ne (by decide)]
          exact ih ht hcalls
      | next =>
          obtain ⟨t, hnext, ht⟩ := reads_next cs s h
          rw [respond, hnext, List.count_cons_self, Nat.add_comm, ← List.drop_drop, List.drop_one]
          exact ih ht hcalls
      | skipLine => exact absurd rfl hc

theorem spells_of_decode? {bytes : List UInt8} (h : decode? bytes = some cs) :
    (ofBytes bytes).Spells cs :=
  ⟨cs, rfl, (encoded_of_decode? h).symm, nofun⟩

/-! ### Asking again -/

theorem next_of_peek (h : peek s = (.ok o, t)) :
    next s = (.ok o, { t with line := t.line.tail }) := by
  rw [next, bind_apply, h]
  rfl

theorem Ended.next (h : s.Ended) : next s = (.ok none, { s with line := s.line.tail }) :=
  next_of_peek h.peek

theorem Ended.tail (h : s.Ended) : Ended { s with line := s.line.tail } :=
  ⟨by simp [h.line], h.exhausted⟩

/-- What is seen is there to be seen again. -/
theorem peek_of_peek (h : peek s = (.ok o, t)) :
    t.line.toList.head? = o ∧ (o = none → t.Ended) := by
  rcases @spends_peek 0 s with ⟨_, _, _, hfacing, hrun⟩ | ⟨_, _, _, _, hrun⟩
  all_goals
    cases (hrun 0 (Nat.le_refl 0)).symm.trans h
  exact hfacing

theorem next_after_peek (h : peek s = (.ok o, t)) : (next t).1 = .ok o := by
  obtain ⟨hhead, hended⟩ := peek_of_peek h
  cases o with
  | none => rw [(hended rfl).next]
  | some c => rw [next_of_peek (peek_of_head? hhead)]

/-- At the end, all calls that answer answer that there is no character. -/
theorem Ended.answers (h : s.Ended) (calls : List StreamCall) {r : Except Error (Option Char)}
    (hr : some r ∈ Responder.answers respond s calls) : r = .ok none := by
  induction calls generalizing s with
  | nil => cases hr
  | cons c calls ih =>
      rw [Responder.answers, List.mem_cons] at hr
      cases c with
      | peek =>
          rw [respond, h.peek] at hr
          rcases hr with hr | hlater
          · exact Option.some.inj hr
          · exact ih h hlater
      | next =>
          rw [respond, h.next] at hr
          rcases hr with hr | hlater
          · exact Option.some.inj hr
          · exact ih h.tail hlater
      | skipLine =>
          have hskipped : s.skipLine.Ended := ⟨rfl, h.exhausted⟩
          exact ih hskipped (hr.resolve_left nofun)

/-- A character that is handed out is one that is shown. -/
theorem exists_peek_of_next (h : next s = (.ok o, t)) :
    ∃ u, peek s = (.ok o, u) ∧ t = { u with line := u.line.tail } := by
  obtain ⟨_, u, hpeek, htake⟩ := exists_of_bind_ok h
  cases htake
  exact ⟨u, hpeek, rfl⟩

theorem ended_of_none (h : peek s = (.ok none, t) ∨ next s = (.ok none, t)) : t.Ended := by
  rcases h with hpeek | hnext
  · exact (peek_of_peek hpeek).2 rfl
  · obtain ⟨u, hpeek, rfl⟩ := exists_peek_of_next hnext
    exact ((peek_of_peek hpeek).2 rfl).tail

/-- Calls for characters are answered as the lines of the bytes answer them, one after the other.
Valid text is handed out character by character, whatever is shown in between; what is shown is
handed out next; and once there is no character, there is none for good. -/
theorem stream_is_page (bytes : List UInt8) (calls : List StreamCall) :
    let s := Responder.after respond (ofBytes bytes) calls
    Responder.answers respond (ofBytes bytes) calls =
        Responder.answers Page.respond (.ofBytes bytes) calls ∧
      (∀ cs, decode? bytes = some cs → .skipLine ∉ calls →
        (peek s).1 = .ok cs[calls.count .next]? ∧ (next s).1 = .ok cs[calls.count .next]?) ∧
      (∀ o t, peek s = (.ok o, t) → (next t).1 = .ok o) ∧
      ∀ t, peek s = (.ok none, t) ∨ next s = (.ok none, t) →
        ∀ later r, some r ∈ Responder.answers respond t later → r = .ok none := by
  intro s
  refine ⟨answers_page (coherent_ofBytes bytes) calls, fun cs hdecode hcalls => ?_,
    fun o t => next_after_peek, fun t h later r hr => (ended_of_none h).answers later hr⟩
  have hspells := (spells_of_decode? hdecode).after hcalls
  obtain ⟨_, hpeek, _⟩ := reads_peek _ s hspells
  obtain ⟨_, hnext, _⟩ := reads_next _ s hspells
  rw [hpeek, hnext, List.head?_drop]
  exact ⟨rfl, rfl⟩

/-- In `a`, `b`, each on a line of its own, the line of `b` not ended, with a first look and two
characters taken the next one is `b`; then there is none, and none after that. -/
theorem stream_is_page_two_lines :
    let s := Responder.after respond (ofBytes [97, 10, 98]) [.peek, .next, .next]
    let t : CharStream := ⟨.ofList ['b'], .ofList [], false⟩
    let u : CharStream := ⟨.ofList [], .ofList [], true⟩
    (peek s).1 = .ok (some 'b') ∧ (next s).1 = .ok (some 'b') ∧ (next t).1 = .ok (some 'b') ∧
      ∀ r, some r ∈ Responder.answers respond u [.next, .skipLine, .peek] → r = .ok none := by
  intro s t u
  obtain ⟨_, htext, hagain, _⟩ := stream_is_page [97, 10, 98] [.peek, .next, .next]
  obtain ⟨_, _, _, hend⟩ := stream_is_page [97, 10, 98] [.peek, .next, .next, .next]
  obtain ⟨hpeek, hnext⟩ := htext ['a', '\n', 'b'] (by rfl) (by decide)
  exact ⟨hpeek, hnext, hagain (some 'b') t (by rfl), hend u (.inl (by rfl)) _⟩

end CharStream

end TinyLisp
