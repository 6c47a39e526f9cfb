import TinyLisp.Proofs.Text.Readable
import TinyLisp.Proofs.Text.Tokens

/-!
Reading gets on, whatever the bytes.  A call of the reader never meets its bound; unless it meets
the end it takes bytes off the front of the stream, failures included; and the end, once met, stays.
Main statement: `spends_topLevel`.
-/

namespace TinyLisp

open CharStream Reader Text

/-- Decoded characters are encoded by the bytes they were decoded from. -/
theorem encoded_of_decode? {bytes : List UInt8} {cs : List Char} (h : decode? bytes = some cs) :
    cs.flatMap String.utf8EncodeChar = bytes := by
  rw [decode?, Option.map_eq_some_iff] at h
  obtain ⟨text, htext, rfl⟩ := h
  rw [← encode_ofList, String.ofList_toList]
  simp only [String.fromUTF8?] at htext
  split at htext
  · cases htext
    simp [encode, String.fromUTF8]
  · cases htext

namespace CharStream

/-- The bytes still to come: those of the line in use, and those not yet taken. -/
def bytes (s : CharStream) : List UInt8 :=
  s.line.toList.flatMap String.utf8EncodeChar ++ s.unread.toList

/-- From `s` to `t` at least `n` characters or bytes were taken, all of them off the front. -/
structure Takes (n : Nat) (s t : CharStream) : Prop where
  size_le : t.size + n ≤ s.size
  bytes_eq : ∃ taken, n ≤ taken.length ∧ s.bytes = taken ++ t.bytes

/-- The end has been met, so nothing comes any more. -/
structure Ended (s : CharStream) : Prop where
  line : s.line.toList = []
  exhausted : s.exhausted = true

theorem size_eq (s : CharStream) : s.size = s.line.toList.length + s.unread.toList.length := by
  rw [size, s.line.length_eq, s.unread.length_eq]

namespace Takes

variable {n m : Nat} {s t u : CharStream}

theorem refl (s : CharStream) : Takes 0 s s :=
  ⟨Nat.le_refl _, [], Nat.le_refl _, rfl⟩

theorem trans (h : Takes n s t) (h' : Takes m t u) : Takes (n + m) s u := by
  obtain ⟨hsize, taken, hlength, hbytes⟩ := h
  obtain ⟨hsize', taken', hlength', hbytes'⟩ := h'
  refine ⟨by omega, taken ++ taken', ?_, ?_⟩
  · rw [List.length_append]
    omega
  · rw [hbytes, hbytes', List.append_assoc]

theorem mono (h : Takes n s t) (hle : m ≤ n) : Takes m s t := by
  obtain ⟨hsize, taken, hlength, hbytes⟩ := h
  exact ⟨by omega, taken, by omega, hbytes⟩

end Takes

end CharStream

/-- What reading complains about: bytes that are no text, and texts that are malformed in one of the
ways that a text can be malformed in. -/
inductive Complaint : Error → Prop where
  | invalidText : Complaint (.io .invalidText)
  | malformed {cause} (hend : cause ≠ .unexpectedEnd) (hname : cause ≠ .emptySymbol)
      (hdigits : ∀ digits, cause ≠ .malformedNumber digits) : Complaint (.malformed cause)

/-- Within every bound from `need` on, the scan does one and the same thing on the stream: it
answers such that `Q` and takes at least `n`, or complains and takes at least `k`. -/
def Scan.Spends {α : Type} (m : Nat → Scan α) (need k n : Nat) (s : CharStream)
    (Q : α → CharStream → Prop) : Prop :=
  (∃ a t, Takes n s t ∧ Q a t ∧ ∀ bound, need ≤ bound → m bound s = (.ok a, t)) ∨
    ∃ e t, Takes k s t ∧ Complaint e ∧ ∀ bound, need ≤ bound → m bound s = (.error e, t)

namespace Scan.Spends

variable {α β : Type} {m : Nat → Scan α} {f : Nat → α → Scan β} {need need' k k' n n' : Nat}
  {s : CharStream} {Q : α → CharStream → Prop} {Q' : β → CharStream → Prop}

theorem of_ok {scan : Scan α} {a : α} {t : CharStream} (hrun : scan s = (.ok a, t))
    (htakes : Takes n s t) (ha : Q a t) : Spends (fun _ => scan) need k n s Q :=
  .inl ⟨a, t, htakes, ha, fun _ _ => hrun⟩

theorem of_error {scan : Scan α} {e : Error} {t : CharStream} (hrun : scan s = (.error e, t))
    (htakes : Takes k s t) (he : Complaint e) : Spends (fun _ => scan) need k n s Q :=
  .inr ⟨e, t, htakes, he, fun _ _ => hrun⟩

theorem pure {a : α} (h : Q a s) : Spends (fun _ => (Pure.pure a : Scan α)) need k 0 s Q :=
  of_ok rfl (.refl s) h

theorem throw {e : Error} (h : Complaint e) :
    Spends (fun _ => (MonadExcept.throw e : Scan α)) need 0 n s Q :=
  of_error rfl (.refl s) h

/-- What a scan takes its sequel does not have to take. -/
theorem bind (hm : Spends m need k' n s Q) (hk : k ≤ k')
    (hf : ∀ a t, Takes n s t → Q a t →
      Spends (fun bound => f bound a) need (k - n) (n' - n) t Q') :
    Spends (fun bound => m bound >>= f bound) need k n' s Q' := by
  rcases hm with ⟨a, t, htakes, ha, hrun⟩ | ⟨e, t, htakes, he, hrun⟩
  · rcases hf a t htakes ha with ⟨b, u, htakes', hb, hrun'⟩ | ⟨e, u, htakes', he, hrun'⟩
    · refine .inl ⟨b, u, (htakes.trans htakes').mono (by omega), hb, fun bound hbound => ?_⟩
      change (m bound >>= f bound) s = _
      rw [bind_apply, hrun bound hbound]
      exact hrun' bound hbound
    · refine .inr ⟨e, u, (htakes.trans htakes').mono (by omega), he, fun bound hbound => ?_⟩
      change (m bound >>= f bound) s = _
      rw [bind_apply, hrun bound hbound]
      exact hrun' bound hbound
  · refine .inr ⟨e, t, htakes.mono hk, he, fun bound hbound => ?_⟩
    change (m bound >>= f bound) s = _
    rw [bind_apply, hrun bound hbound]

theorem mono (h : Spends m need k n s Q) (hneed : need ≤ need') (hk : k' ≤ k) (hn : n' ≤ n) :
    Spends m need' k' n' s Q := by
  rcases h with ⟨a, t, htakes, ha, hrun⟩ | ⟨e, t, htakes, he, hrun⟩
  · exact .inl ⟨a, t, htakes.mono hn, ha, fun bound hle => hrun bound (Nat.le_trans hneed hle)⟩
  · exact .inr ⟨e, t, htakes.mono hk, he, fun bound hle => hrun bound (Nat.le_trans hneed hle)⟩

theorem within (h : Spends m need k n s Q) (hneed : need ≤ need') : Spends m need' k n s Q :=
  h.mono hneed (Nat.le_refl k) (Nat.le_refl n)

theorem imp {R : α → CharStream → Prop} (h : Spends m need k n s Q)
    (hQ : ∀ a t, Takes n s t → Q a t → R a t) : Spends m need k n s R := by
  rcases h with ⟨a, t, htakes, ha, hrun⟩ | hfails
  · exact .inl ⟨a, t, htakes, hQ a t htakes ha, hrun⟩
  · exact .inr hfails

/-- A call costs one of its bound. -/
theorem succ (h : Spends (fun bound => m (bound + 1)) need k n s Q) :
    Spends m (need + 1) k n s Q := by
  rcases h with ⟨a, t, htakes, ha, hrun⟩ | ⟨e, t, htakes, he, hrun⟩
  · exact .inl ⟨a, t, htakes, ha, of_succ_le hrun⟩
  · exact .inr ⟨e, t, htakes, he, of_succ_le hrun⟩

/-- What every answer of a scan is like, this one is too. -/
theorem gives {R : α → CharStream → Prop} (h : Spends m need k n s Q)
    (hm : Gives (fun _ => True) (m need) R) : Spends m need k n s fun a t => Q a t ∧ R a t := by
  rcases h with ⟨a, t, htakes, ha, hrun⟩ | hfails
  · exact .inl ⟨a, t, htakes, ⟨ha, hm s a t trivial (hrun need (Nat.le_refl _))⟩, hrun⟩
  · exact .inr hfails

end Scan.Spends

namespace CharStream

open Scan

variable {need : Nat} {s : CharStream} {c : Char}

/-- Filling the line takes nothing, unless the next line is no text and is dropped. -/
theorem spends_fill (s : CharStream) :
    Spends (fun _ => fill) need 1 0 s fun _ t => t.line.toList = [] → t.exhausted = true := by
  by_cases hneeded : (s.line.toList.isEmpty && !s.exhausted) = true
  · obtain ⟨hline, _⟩ : s.line.toList = [] ∧ s.exhausted = false := by simpa using hneeded
    have hfill := fill_apply s
    rw [if_pos hneeded] at hfill
    by_cases hunread : s.unread.toList = []
    · rw [if_pos (List.isEmpty_iff.mpr hunread)] at hfill
      exact .of_ok hfill ⟨Nat.le_refl _, [], Nat.le_refl _, rfl⟩ fun _ => rfl
    · rw [if_neg (by simpa using hunread)] at hfill
      have hparts := splitLine_append s.unread.toList
      have hrest : (takeLine s.unread).2.toList = (splitLine s.unread.toList).2 := rfl
      have hfewer := length_splitLine_snd_lt hunread
      have hlength := congrArg List.length hparts
      rw [List.length_append] at hlength
      cases hdecode : decode? (splitLine s.unread.toList).1 with
      | none =>
          rw [hdecode] at hfill
          refine .of_error hfill ⟨?_, (splitLine s.unread.toList).1, by omega, ?_⟩ .invalidText
          · simp only [size_eq, hrest]
            omega
          · simp [bytes, hline, hrest, hparts]
      | some line =>
          rw [hdecode] at hfill
          have hline' := encoded_of_decode? hdecode
          have hchars := length_le_encoded line
          rw [hline'] at hchars
          refine .of_ok hfill ⟨?_, [], Nat.le_refl _, ?_⟩ ?_
          · simp only [size_eq, hrest, hline, Counted.toList_ofList, List.length_nil]
            omega
          · simp [bytes, hline, hrest, hparts, hline']
          · intro hnone
            rw [Counted.toList_ofList] at hnone
            rw [hnone, List.flatMap_nil] at hline'
            rw [← hline', List.length_nil] at hlength
            omega
  · have hfill := fill_apply s
    rw [if_neg hneeded] at hfill
    refine .of_ok hfill (.refl s) fun hline => ?_
    simpa [hline] using hneeded

/-- Looking at the next character takes nothing, and shows none only at the end. -/
theorem spends_peek (s : CharStream) :
    Spends (fun _ => peek) need 1 0 s fun o t =>
      t.line.toList.head? = o ∧ (o = none → t.Ended) := by
  refine (spends_fill s).bind (by omega) fun _ t _ hend => ?_
  refine .of_ok rfl (.refl t) ⟨rfl, fun hnone => ?_⟩
  have hline := List.head?_eq_none_iff.mp hnone
  exact ⟨hline, hend hline⟩

theorem peek_of_head? (h : s.line.toList.head? = some c) : peek s = (.ok (some c), s) := by
  have hfill : fill s = (.ok (), s) := by
    rw [fill_apply, if_neg]
    cases hline : s.line.toList with
    | nil =>
        rw [hline] at h
        cases h
    | cons d line => simp
  rw [peek, bind_apply, hfill]
  simp [h]

theorem takes_tail (h : s.line.toList.head? = some c) :
    Takes 1 s { s with line := s.line.tail } := by
  obtain ⟨line, hline⟩ := List.head?_eq_some_iff.mp h
  refine ⟨?_, String.utf8EncodeChar c, ?_, ?_⟩
  · simp [size_eq, hline, Nat.add_right_comm]
  · exact List.length_pos_iff.mpr String.utf8EncodeChar_ne_nil
  · simp [bytes, hline]

theorem spends_peek_of_head? {k : Nat} (h : s.line.toList.head? = some c) :
    Spends (fun _ => peek) need k 0 s fun o t => o = some c ∧ t = s :=
  .of_ok (peek_of_head? h) (.refl s) ⟨rfl, rfl⟩

/-- A character that was seen is the next one to be taken. -/
theorem spends_next_of_head? (h : s.line.toList.head? = some c) :
    Spends (fun _ => next) need 1 1 s fun o _ => o = some c := by
  have hnext : next s = (.ok (some c), { s with line := s.line.tail }) := by
    rw [next, bind_apply, peek_of_head? h]
    rfl
  exact .of_ok hnext (takes_tail h) rfl

/-- Taking the next character takes something, except at the end. -/
theorem spends_next (s : CharStream) :
    Spends (fun _ => next) need 1 0 s fun o t => o ≠ none → Takes 1 s t := by
  have htake (o : Option Char) (t : CharStream) (htakes : Takes 0 s t)
      (hpeek : t.line.toList.head? = o ∧ (o = none → t.Ended)) :
      Spends (fun _ => do modify fun s => { s with line := s.line.tail }; return o) need 1 0 t
        fun o u => o ≠ none → Takes 1 s u := by
    refine .of_ok rfl ?_ ?_
    · cases o with
      | none =>
          have htail : ({ t with line := t.line.tail } : CharStream) = t := by
            have hnil : t.line.tail = t.line := Counted.eq_of_toList (by simp [(hpeek.2 rfl).line])
            rw [hnil]
          change Takes 0 t { t with line := t.line.tail }
          rw [htail]
          exact .refl t
      | some c => exact (takes_tail hpeek.1).mono (Nat.zero_le 1)
    · intro hsome
      obtain ⟨c, rfl⟩ := Option.ne_none_iff_exists'.mp hsome
      exact htakes.trans (takes_tail hpeek.1)
  exact (spends_peek s).bind (by omega) htake

end CharStream

namespace Reader

open Scan

variable {need : Nat} {s : CharStream} {c : Char}

/-! ### Between data -/

/-- Skipping a comment takes a character in each round. -/
theorem spends_skipComment (s : CharStream) :
    Spends skipComment (s.size + 1) 1 0 s fun _ _ => True := by
  induction hsize : s.size using Nat.strongRecOn generalizing s with
  | ind size ih =>
      subst hsize
      apply Spends.succ
      simp only [skipComment]
      refine (spends_next s).bind (by omega) fun o t _ hsome => ?_
      cases o with
      | none => exact .pure trivial
      | some c =>
          have hfewer := (hsome (Option.some_ne_none c)).size_le
          by_cases hnewline : c = '\n'
          · simp only [if_pos hnewline]
            exact .pure trivial
          · simp only [if_neg hnewline]
            exact (ih t.size (by omega) t rfl).within (by omega)

/-- A comment takes at least its first character. -/
theorem spends_skipComment_of_head? (h : s.line.toList.head? = some c) :
    Spends skipComment (s.size + 1) 1 1 s fun _ _ => True := by
  apply Spends.succ
  simp only [skipComment]
  refine (spends_next_of_head? h).bind (by omega) ?_
  rintro o t htakes rfl
  by_cases hnewline : c = '\n'
  · simp only [if_pos hnewline]
    exact .pure trivial
  · have hfewer := htakes.size_le
    simp only [if_neg hnewline]
    exact (spends_skipComment t).mono (by omega) (by omega) (by omega)

/-- What may come next behind a gap: the end, or a character that is neither blank nor starts a
comment. -/
def Facing (o : Option Char) (s : CharStream) : Prop :=
  match o with
  | none => s.Ended
  | some c => s.line.toList.head? = some c ∧ isBlank c = false ∧ c ≠ ';'

theorem spends_skipAtmosphere (s : CharStream) :
    Spends skipAtmosphere (s.size + 2) 1 0 s Facing := by
  induction hsize : s.size using Nat.strongRecOn generalizing s with
  | ind size ih =>
      subst hsize
      apply Spends.succ
      simp only [skipAtmosphere]
      refine (spends_peek s).bind (by omega) fun o t htakes hpeek => ?_
      obtain ⟨hhead, hend⟩ := hpeek
      have hle := htakes.size_le
      cases o with
      | none => exact .pure (hend rfl)
      | some c =>
          simp only
          by_cases hcomment : c = ';'
          · simp only [if_pos hcomment]
            refine ((spends_skipComment_of_head? hhead).within (by omega)).bind (by omega)
              fun _ u htakes' _ => ?_
            have hfewer := htakes'.size_le
            exact (ih u.size (by omega) u rfl).mono (by omega) (by omega) (by omega)
          · by_cases hblank : isBlank c = true
            · simp only [if_neg hcomment, if_pos hblank]
              refine (spends_next_of_head? hhead).bind (by omega) fun _ u htakes' _ => ?_
              have hfewer := htakes'.size_le
              exact (ih u.size (by omega) u rfl).mono (by omega) (by omega) (by omega)
            · simp only [if_neg hcomment, if_neg hblank]
              exact .pure ⟨hhead, by simpa using hblank, hcomment⟩

/-! ### Tokens -/

theorem spends_takeRun (p : Char → Bool) (taken : List Char) (s : CharStream) :
    Spends (fun bound => takeRun p bound taken) (s.size + 1) 1 0 s fun _ _ => True := by
  induction hsize : s.size using Nat.strongRecOn generalizing s taken with
  | ind size ih =>
      subst hsize
      apply Spends.succ
      simp only [takeRun]
      refine (spends_peek s).bind (by omega) fun o t htakes hpeek => ?_
      have hle := htakes.size_le
      cases o with
      | none => exact .pure trivial
      | some c =>
          by_cases hc : p c = true
          · simp only [if_pos hc]
            refine (spends_next_of_head? hpeek.1).bind (by omega) fun _ u htakes' _ => ?_
            have hfewer := htakes'.size_le
            exact (ih u.size (by omega) (c :: taken) u rfl).mono (by omega) (by omega) (by omega)
          · simp only [if_neg hc]
            exact .pure trivial

/-- A run whose first character was seen takes at least that. -/
theorem spends_takeRun_of_head? {p : Char → Bool} (h : s.line.toList.head? = some c)
    (hc : p c = true) :
    Spends (fun bound => takeRun p bound []) (s.size + 1) 1 1 s fun run _ =>
      (∀ d ∈ run, p d = true) ∧ [c] <+: run := by
  apply Spends.succ
  simp only [takeRun]
  refine (spends_peek_of_head? (k := 1) h).bind (by omega) ?_
  rintro _ t _ ⟨rfl, rfl⟩
  simp only [if_pos hc]
  refine (spends_next_of_head? h).bind (by omega) fun _ u htakes _ => ?_
  have hfewer := htakes.size_le
  have hrun : Spends (fun bound => takeRun p bound [c]) t.size 1 0 u fun _ _ => True :=
    (spends_takeRun p [c] u).within (by omega)
  have hgives := gives_takeRun p t.size [c] (List.forall_mem_singleton.mpr hc)
  exact ((hrun.gives hgives).imp fun _ _ _ => And.right).mono (by omega) (by omega) (by omega)

/-- A boolean takes its hash. -/
theorem spends_boolean (h : s.line.toList.head? = some c) :
    Spends (fun _ => boolean) need 1 1 s fun _ _ => True := by
  refine (spends_next_of_head? h).bind (by omega) fun _ t _ _ => ?_
  refine (spends_next t).bind (by omega) fun o u _ _ => ?_
  cases o with
  | none => exact .throw (by constructor <;> simp)
  | some c =>
      by_cases htrue : c = 't'
      · simp only [if_pos htrue]
        exact .pure trivial
      · by_cases hfalse : c = 'f'
        · simp only [if_neg htrue, if_pos hfalse]
          exact .pure trivial
        · simp only [if_neg htrue, if_neg hfalse]
          exact .throw (by constructor <;> simp)

/-- Digits always make a number. -/
theorem spends_number (h : s.line.toList.head? = some c) (hc : c.isDigit = true) :
    Spends number (s.size + 1) 1 1 s fun _ _ => True := by
  refine (spends_takeRun_of_head? h hc).bind (by omega) fun run t _ hrun => ?_
  obtain ⟨hdigits, more, rfl⟩ := hrun
  rw [List.singleton_append] at hdigits
  obtain ⟨_, hmore⟩ := List.forall_mem_cons.mp hdigits
  simp only [List.singleton_append, Numeral.parse?_of_digits hc hmore]
  exact .pure trivial

/-- A name always has its first character. -/
theorem spends_symbol (h : s.line.toList.head? = some c) (hc : isDelimiter c = false) :
    Spends symbol (s.size + 1) 1 1 s fun _ _ => True := by
  have hplain : (!isDelimiter c) = true := by simpa using hc
  refine (spends_takeRun_of_head? (p := fun c => !isDelimiter c) h hplain).bind (by omega)
    fun run t _ hrun => ?_
  obtain ⟨_, more, rfl⟩ := hrun
  exact .pure trivial

theorem spends_stringRest (taken : List Char) (s : CharStream) :
    Spends (fun bound => stringRest bound taken) (s.size + 1) 0 0 s fun _ _ => True := by
  induction hsize : s.size using Nat.strongRecOn generalizing s taken with
  | ind size ih =>
      subst hsize
      apply Spends.succ
      simp only [stringRest]
      refine (spends_next s).bind (by omega) fun o t _ hsome => ?_
      cases o with
      | none => exact .throw (by constructor <;> simp)
      | some c =>
          have hfewer := (hsome (Option.some_ne_none c)).size_le
          by_cases hquote : c = '"'
          · simp only [if_pos hquote]
            exact .pure trivial
          · simp only [if_neg hquote]
            exact (ih t.size (by omega) (c :: taken) t rfl).within (by omega)

/-- A string takes its first quote. -/
theorem spends_string (h : s.line.toList.head? = some c) :
    Spends string (s.size + 1) 1 1 s fun _ _ => True := by
  refine (spends_next_of_head? h).bind (by omega) fun _ t htakes _ => ?_
  have hfewer := htakes.size_le
  exact (spends_stringRest [] t).within (by omega)

theorem spends_closeDotted (tail : Datum) (s : CharStream) :
    Spends (fun bound => closeDotted bound tail) (s.size + 2) 0 0 s fun _ _ => True := by
  refine (spends_skipAtmosphere s).bind (by omega) fun o t _ hfacing => ?_
  cases o with
  | none => exact .throw (by constructor <;> simp)
  | some c =>
      by_cases hclose : c = ')'
      · simp only [if_pos hclose]
        exact (spends_next_of_head? hfacing.1).bind (by omega) fun _ _ _ _ => .pure trivial
      · simp only [if_neg hclose]
        exact .throw (by constructor <;> simp)

/-! ### Data -/

/-- A datum takes its first character, if the items do what they should that may be in it. -/
theorem spends_datum_of (hfacing : Facing (some c) s) (hclose : c ≠ ')')
    (hitems : ∀ t, Takes 1 s t →
      Spends (fun bound => items bound []) (2 * t.size + 3) 0 0 t fun _ _ => True) :
    Spends datum (2 * s.size + 2) 1 1 s fun _ _ => True := by
  obtain ⟨hhead, hblank, hcomment⟩ := hfacing
  apply Spends.succ
  simp only [datum]
  refine (spends_peek_of_head? (k := 1) hhead).bind (by omega) ?_
  rintro _ t _ ⟨rfl, rfl⟩
  by_cases hhash : c = '#'
  · simp only [if_pos hhash]
    exact spends_boolean hhead
  by_cases hquote : c = '"'
  · simp only [if_neg hhash, if_pos hquote]
    exact (spends_string hhead).within (by omega)
  by_cases hopen : c = '('
  · simp only [if_neg hhash, if_neg hquote, if_pos hopen]
    refine (spends_next_of_head? hhead).bind (by omega) fun _ u htakes _ => ?_
    have hfewer := htakes.size_le
    exact (hitems u htakes).within (by omega)
  by_cases hdigit : c.isDigit = true
  · simp only [if_neg hhash, if_neg hquote, if_neg hopen, if_neg hclose, if_pos hdigit]
    exact (spends_number hhead hdigit).within (by omega)
  · simp only [if_neg hhash, if_neg hquote, if_neg hopen, if_neg hclose, if_neg hdigit]
    have hplain : isDelimiter c = false := by
      simp [isDelimiter, hhash, hquote, hopen, hclose, hcomment, hblank]
    exact (spends_symbol hhead hplain).within (by omega)

theorem spends_dottedTail_of
    (hdatum : ∀ c t, Takes 0 s t → Facing (some c) t → c ≠ ')' →
      Spends datum (2 * t.size + 2) 1 1 t fun _ _ => True) :
    Spends dottedTail (2 * s.size + 3) 0 0 s fun _ _ => True := by
  apply Spends.succ
  simp only [dottedTail]
  refine ((spends_skipAtmosphere s).within (by omega)).bind (by omega)
    fun o t htakes hfacing => ?_
  have hle := htakes.size_le
  cases o with
  | none => exact .throw (by constructor <;> simp)
  | some c =>
      by_cases hclose : c = ')'
      · simp only [if_pos hclose]
        exact .throw (by constructor <;> simp)
      · simp only [if_neg hclose]
        refine ((hdatum c t htakes hfacing hclose).within (by omega)).bind (by omega) ?_
        intro tail u htakes' _
        have hfewer := htakes'.size_le
        exact (spends_closeDotted tail u).within (by omega)

/-- By induction on what is still to come: each item takes at least a character. -/
theorem spends_items (read : List Datum) (s : CharStream) :
    Spends (fun bound => items bound read) (2 * s.size + 3) 0 0 s fun _ _ => True := by
  induction hsize : s.size using Nat.strongRecOn generalizing s read with
  | ind size ih =>
      subst hsize
      have hdatum (c : Char) (t : CharStream) (hle : t.size ≤ s.size)
          (hfacing : Facing (some c) t) (hclose : c ≠ ')') :
          Spends datum (2 * t.size + 2) 1 1 t fun _ _ => True := by
        refine spends_datum_of hfacing hclose fun u htakes => ?_
        have hfewer := htakes.size_le
        exact ih u.size (by omega) [] u rfl
      apply Spends.succ
      simp only [items]
      refine ((spends_skipAtmosphere s).within (by omega)).bind (by omega)
        fun o t htakes hfacing => ?_
      have hle := htakes.size_le
      cases o with
      | none => exact .throw (by constructor <;> simp)
      | some c =>
          by_cases hclose : c = ')'
          · simp only [if_pos hclose]
            exact (spends_next_of_head? hfacing.1).bind (by omega) fun _ _ _ _ => .pure trivial
          simp only [if_neg hclose]
          refine ((hdatum c t hle hfacing hclose).within (by omega)).bind (by omega) ?_
          intro d u htakes' _
          have hfewer := htakes'.size_le
          by_cases hdot : d.isSymbol "." = true
          · simp only [if_pos hdot]
            by_cases hempty : read.isEmpty = true
            · simp only [if_pos hempty]
              exact .throw (by constructor <;> simp)
            · simp only [if_neg hempty]
              have htail : Spends dottedTail (2 * u.size + 3) 0 0 u fun _ _ => True := by
                refine spends_dottedTail_of fun c v htakes'' => hdatum c v ?_
                have hle' := htakes''.size_le
                omega
              exact (htail.within (by omega)).bind (by omega) fun _ _ _ _ => .pure trivial
          · simp only [if_neg hdot]
            exact (ih u.size (by omega) (d :: read) u rfl).within (by omega)

theorem spends_datum (hfacing : Facing (some c) s) (hclose : c ≠ ')') :
    Spends datum (2 * s.size + 2) 1 1 s fun _ _ => True :=
  spends_datum_of hfacing hclose fun t _ => spends_items [] t

/-- At top level reading takes something, or meets the end. -/
theorem spends_topLevel (s : CharStream) :
    Spends topLevel (2 * s.size + 2) 1 0 s fun o t =>
      (o = none → t.Ended) ∧ (o ≠ none → Takes 1 s t) := by
  refine ((spends_skipAtmosphere s).within (by omega)).bind (by omega)
    fun o t htakes hfacing => ?_
  have hle := htakes.size_le
  cases o with
  | none => exact .pure ⟨fun _ => hfacing, fun h => absurd rfl h⟩
  | some c =>
      by_cases hclose : c = ')'
      · simp only [if_pos hclose]
        refine (spends_next_of_head? hfacing.1).bind (by omega) fun _ _ _ _ => ?_
        exact .throw (by constructor <;> simp)
      · simp only [if_neg hclose]
        refine ((spends_datum hfacing hclose).within (by omega)).bind (by omega)
          fun d u htakes' _ => ?_
        exact .pure ⟨by simp, fun _ => htakes.trans htakes'⟩

/-! ### Calls of the reader -/

/-- A call returns: no more of the bound would make a difference. -/
theorem topLevel_eq_readDatum {bound : Nat} (hbound : boundFor s ≤ bound) :
    topLevel bound s = readDatum s := by
  rw [readDatum_apply]
  rw [boundFor] at *
  rcases spends_topLevel s with ⟨_, _, _, _, hrun⟩ | ⟨_, _, _, _, hrun⟩
  all_goals rw [hrun _ (by omega), hrun _ (by omega)]

/-- A call meets the end for good, or it takes something. -/
theorem readDatum_cases (s : CharStream) :
    (∃ t, readDatum s = (.ok none, t) ∧ t.Ended) ∨
      (∃ d t, readDatum s = (.ok (some d), t) ∧ Takes 1 s t) ∨
      ∃ e t, readDatum s = (.error e, t) ∧ Complaint e ∧ Takes 1 s t := by
  rcases spends_topLevel s with ⟨o, t, _, ⟨hended, htakes⟩, hrun⟩ | ⟨e, t, htakes, he, hrun⟩
  all_goals
    have hcall := hrun (boundFor s) (by rw [boundFor]; omega)
    rw [topLevel_eq_readDatum (Nat.le_refl _)] at hcall
  · cases o with
    | none => exact .inl ⟨t, hcall, hended rfl⟩
    | some d => exact .inr (.inl ⟨d, t, hcall, htakes (Option.some_ne_none d)⟩)
  · exact .inr (.inr ⟨e, t, hcall, he, htakes⟩)

end Reader

namespace CharStream

open Scan

variable {s t : CharStream}

theorem Ended.peek (h : s.Ended) : peek s = (.ok none, s) := by
  have hfill : fill s = (.ok (), s) := by
    rw [fill_apply, if_neg]
    simp [h.exhausted]
  rw [CharStream.peek, bind_apply, hfill]
  simp [h.line]

theorem Ended.readDatum (h : s.Ended) : Reader.readDatum s = (.ok none, s) := by
  have hskip : Reader.skipAtmosphere (boundFor s) s = (.ok none, s) := by
    rw [boundFor, Reader.skipAtmosphere, bind_apply, h.peek]
    rfl
  rw [← topLevel_eq_readDatum (Nat.le_refl _), Reader.topLevel, bind_apply, hskip]
  rfl

theorem Ended.skipLine (h : s.Ended) : s.skipLine.Ended :=
  ⟨rfl, h.exhausted⟩

/-- Dropping a line only drops what was to come next. -/
theorem takes_skipLine (s : CharStream) : Takes 0 s s.skipLine :=
  ⟨by simp [size_eq, CharStream.skipLine], s.line.toList.flatMap String.utf8EncodeChar,
    Nat.zero_le _, rfl⟩

/-- One call on a stream: reading, or dropping a line. -/
def Call (s t : CharStream) : Prop :=
  t = (Reader.readDatum s).2 ∨ t = s.skipLine

theorem Ended.call (h : s.Ended) (hcall : Call s t) : t.Ended := by
  rcases hcall with rfl | rfl
  · rw [h.readDatum]
    exact h
  · exact h.skipLine

end CharStream

end TinyLisp
