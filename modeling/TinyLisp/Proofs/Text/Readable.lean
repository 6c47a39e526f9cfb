import TinyLisp.Equality
import TinyLisp.Proofs.Text.Spelling
import TinyLisp.Reader
import TinyLisp.State

/-!
What can be read.  Main statement: `readDatum_readable`, every datum that is read, from whatever
bytes, is one that can be written and read again.
-/

namespace TinyLisp

open CharStream Text

/-- The name of a symbol that a reader can come to. -/
structure Text.IsName (name : List Char) : Prop where
  nonempty : name ≠ []
  plain : ∀ c ∈ name, isDelimiter c = false
  head : ∀ c ∈ name.head?, c.isDigit = false

/-- Decided over booleans, so that no instance for the type of all characters gets in the way. -/
instance (name : List Char) : Decidable (Text.IsName name) :=
  decidable_of_iff (name ≠ [] ∧ (name.all fun c => !isDelimiter c) = true ∧
      name.head?.all (fun c => !c.isDigit) = true) <| by
    constructor
    · rintro ⟨hnonempty, hplain, hhead⟩
      exact ⟨hnonempty, by simpa using hplain, by simpa [Option.all_eq_true] using hhead⟩
    · rintro ⟨hnonempty, hplain, hhead⟩
      exact ⟨hnonempty, by simpa using hplain, by simpa [Option.all_eq_true] using hhead⟩

theorem Text.isName_dot : IsName ['.'] where
  nonempty := List.cons_ne_nil _ _
  plain := List.forall_mem_singleton.mpr rfl
  head := by
    intro c hc
    cases hc
    rfl

/-- Data that the reader can come to.  The symbol `.` is no first of a pair, for it would stand where
it announces a rest. -/
def Datum.Readable : Datum → Prop
  | .number n => 0 ≤ n
  | .string text => '"' ∉ text.toList
  | .symbol name => IsName name.toList
  | .boolean _ => True
  | .nil => True
  | .pair first rest => first.Readable ∧ first.isSymbol "." = false ∧ rest.Readable

/-- Values whose written form can be read. -/
def Value.Readable : Value → Prop
  | .number _ n => 0 ≤ n
  | .string _ text => '"' ∉ text.toList
  | .symbol _ name => IsName name.toList
  | .boolean _ _ => True
  | .nil _ => True
  | .pair _ first rest => first.Readable ∧ first.symbol? ≠ some "." ∧ rest.Readable
  | _ => False

/-! ### Contents of values -/

section Contents

variable {v : Value} {d : Datum}

theorem Value.datum?_pair_eq_some_iff {m : Mark} {first rest : Value} :
    (Value.pair m first rest).datum? = some d ↔
      ∃ d₁ d₂, first.datum? = some d₁ ∧ rest.datum? = some d₂ ∧ d = .pair d₁ d₂ := by
  simp only [Value.datum?, Option.bind_eq_bind, Option.bind_eq_some_iff, Option.pure_def,
    Option.some.injEq]
  constructor
  · rintro ⟨d₁, hfirst, d₂, hrest, rfl⟩
    exact ⟨d₁, d₂, hfirst, hrest, rfl⟩
  · rintro ⟨d₁, d₂, hfirst, hrest, rfl⟩
    exact ⟨d₁, hfirst, d₂, hrest, rfl⟩

theorem Value.symbol?_eq_of_datum? (h : v.datum? = some d) (name : String) :
    v.symbol? = some name ↔ d.isSymbol name = true := by
  cases v with
  | pair m first rest =>
      obtain ⟨d₁, d₂, _, _, rfl⟩ := Value.datum?_pair_eq_some_iff.mp h
      simp [Value.symbol?, Datum.isSymbol]
  | _ => cases h <;> simp [Value.symbol?, Datum.isSymbol]

/-- A value can be read back exactly when its contents can be read. -/
theorem Value.readable_iff : v.Readable ↔ ∃ d, v.datum? = some d ∧ d.Readable := by
  induction v with
  | pair m first rest ihFirst ihRest =>
      simp only [Value.Readable, Value.datum?_pair_eq_some_iff]
      constructor
      · rintro ⟨hfirst, hdot, hrest⟩
        obtain ⟨d₁, hd₁, hfirst⟩ := ihFirst.mp hfirst
        obtain ⟨d₂, hd₂, hrest⟩ := ihRest.mp hrest
        rw [Ne, Value.symbol?_eq_of_datum? hd₁, Bool.not_eq_true] at hdot
        exact ⟨_, ⟨d₁, d₂, hd₁, hd₂, rfl⟩, hfirst, hdot, hrest⟩
      · rintro ⟨_, ⟨d₁, d₂, hd₁, hd₂, rfl⟩, hfirst, hdot, hrest⟩
        refine ⟨ihFirst.mpr ⟨d₁, hd₁, hfirst⟩, ?_, ihRest.mpr ⟨d₂, hd₂, hrest⟩⟩
        rw [Ne, Value.symbol?_eq_of_datum? hd₁, hdot]
        exact Bool.false_ne_true
  | _ => simp [Value.Readable, Value.datum?, Datum.Readable]

/-- The object made of a datum has the contents of the datum. -/
theorem datum?_makeDatum (d : Datum) (s : State) : (State.makeDatum d s).1.datum? = some d := by
  induction d generalizing s with
  | pair first rest ihFirst ihRest =>
      exact Value.datum?_pair_eq_some_iff.mpr
        ⟨first, rest, ihFirst (State.makeDatum rest s).2, ihRest s, rfl⟩
  | _ => rfl

/-- Values with contents are alike when the contents are the same. -/
theorem Value.isAlike_iff_of_datum? {w : Value} (h : w.datum? = some d) :
    w.isAlike v = true ↔ v.datum? = some d := by
  induction w generalizing v d with
  | pair m first rest ihFirst ihRest =>
      obtain ⟨d₁, d₂, hfirst, hrest, rfl⟩ := Value.datum?_pair_eq_some_iff.mp h
      cases v with
      | pair m' first' rest' =>
          simp only [Value.isAlike, Bool.and_eq_true, ihFirst hfirst, ihRest hrest,
            Value.datum?_pair_eq_some_iff, Datum.pair.injEq]
          constructor
          · rintro ⟨hfirst', hrest'⟩
            exact ⟨d₁, d₂, hfirst', hrest', rfl, rfl⟩
          · rintro ⟨_, _, hfirst', hrest', rfl, rfl⟩
            exact ⟨hfirst', hrest'⟩
      | _ => simp [Value.isAlike, Value.datum?]
  | number | string | symbol | boolean | nil =>
      cases h
      cases v with
      | pair m' first' rest' => simp [Value.isAlike, Value.datum?_pair_eq_some_iff]
      | _ => constructor <;> intro halike <;> simp_all [Value.isAlike, Value.datum?]
  | _ => cases h

end Contents

/-! ### What scans answer -/

/-- Started where `pre` holds, a scan that succeeds has an answer and leaves a stream such that
`post` holds. -/
def Scan.Gives {α : Type} (pre : CharStream → Prop) (m : Scan α) (post : α → CharStream → Prop) :
    Prop :=
  ∀ s a t, pre s → m s = (.ok a, t) → post a t

namespace Scan.Gives

variable {α β : Type} {pre : CharStream → Prop} {mid : α → CharStream → Prop}
  {post : β → CharStream → Prop}

theorem pure {b : β} (h : ∀ s, pre s → post b s) : Gives pre (Pure.pure b) post := by
  intro s a t hs hrun
  cases hrun
  exact h s hs

theorem throw (e : Error) : Gives pre (MonadExcept.throw e) post := by
  intro s a t hs hrun
  cases hrun

theorem bind {m : Scan α} {f : α → Scan β} (hm : Gives pre m mid)
    (hf : ∀ a, Gives (mid a) (f a) post) : Gives pre (m >>= f) post := by
  intro s b t hs hrun
  obtain ⟨a, u, hfirst, hsecond⟩ := exists_of_bind_ok hrun
  exact hf a u b t (hm s a u hs hfirst) hsecond

theorem of_forall {pre' : CharStream → Prop} {m : Scan β} (h : ∀ s, pre s → pre' s)
    (hm : Gives pre' m post) : Gives pre m post :=
  fun s a t hs hrun => hm s a t (h s hs) hrun

theorem top (m : Scan α) : Gives pre m fun _ _ => True :=
  fun _ _ _ _ _ => trivial

end Scan.Gives

namespace Reader

open Scan

variable {pre : CharStream → Prop}

/-- The character that was seen is still the next one. -/
theorem gives_peek : Gives pre peek fun o t => t.line.toList.head? = o := by
  unfold peek
  refine (Gives.top fill).bind fun _ => ?_
  intro s o t _ hrun
  cases hrun
  rfl

/-- Looking again shows the same character. -/
theorem gives_peek_again (c : Char) :
    Gives (fun s => s.line.toList.head? = some c) peek fun o _ => o = some c := by
  intro s o t hs hrun
  have hfill : fill s = (.ok (), s) := by
    rw [fill_apply, if_neg]
    cases hline : s.line.toList <;> simp_all
  rw [peek, bind_apply, hfill] at hrun
  cases hrun
  exact hs

theorem gives_takeRun (p : Char → Bool) (bound : Nat) (taken : List Char)
    (htaken : ∀ c ∈ taken, p c = true) :
    Gives (fun _ => True) (takeRun p bound taken) fun run _ =>
      (∀ c ∈ run, p c = true) ∧ taken.reverse <+: run := by
  induction bound generalizing taken with
  | zero => exact .throw _
  | succ bound ih =>
      have hdone : Gives (fun _ => True) (Pure.pure taken.reverse) fun run _ =>
          (∀ c ∈ run, p c = true) ∧ taken.reverse <+: run :=
        .pure fun s _ => ⟨fun c hc => htaken c (List.mem_reverse.mp hc), List.prefix_rfl⟩
      rw [takeRun]
      refine (Gives.top peek).bind fun o => ?_
      cases o with
      | none => exact hdone
      | some c =>
          simp only
          split
          · next hc =>
              refine (Gives.top next).bind fun _ => ?_
              intro s run t _ hrun
              obtain ⟨hall, htail⟩ := ih (c :: taken) (List.forall_mem_cons.mpr ⟨hc, htaken⟩)
                s run t trivial hrun
              rw [List.reverse_cons] at htail
              exact ⟨hall, (List.prefix_append _ _).trans htail⟩
          · exact hdone

/-- A symbol starts with the character that was seen. -/
theorem gives_symbol {c : Char} (hc : c.isDigit = false) (bound : Nat) :
    Gives (fun s => s.line.toList.head? = some c) (symbol bound) fun d _ => d.Readable := by
  have hrun : Gives (fun s => s.line.toList.head? = some c)
      (takeRun (fun c => !isDelimiter c) bound []) fun run _ =>
        (∀ d ∈ run, (!isDelimiter d) = true) ∧ ∀ d ∈ run.head?, d = c := by
    cases bound with
    | zero => exact .throw _
    | succ bound =>
        rw [takeRun]
        refine (gives_peek_again c).bind fun o => ?_
        intro s run t ho hrun
        subst ho
        simp only at hrun
        split at hrun
        · next hplain =>
            have hmore : Gives (fun _ => True)
                (do let _ ← next; takeRun (fun c => !isDelimiter c) bound [c])
                fun run _ => (∀ d ∈ run, (!isDelimiter d) = true) ∧ [c] <+: run :=
              (Gives.top next).bind fun _ => gives_takeRun _ bound [c] (by simpa using hplain)
            obtain ⟨hall, _, rfl⟩ := hmore s run t trivial hrun
            exact ⟨hall, fun d hd => by simpa [eq_comm] using hd⟩
        · cases hrun
          exact ⟨by simp, by simp⟩
  unfold symbol
  refine hrun.bind fun run => ?_
  split
  · exact .throw _
  · next hnonempty =>
      refine .pure fun s hs => ?_
      obtain ⟨hall, hhead⟩ := hs
      rw [Datum.Readable, String.toList_ofList]
      refine ⟨by simpa using hnonempty, by simpa using hall, fun d hd => ?_⟩
      rw [hhead d hd]
      exact hc

theorem gives_number (bound : Nat) : Gives pre (number bound) fun d _ => d.Readable := by
  unfold number
  refine ((gives_takeRun Char.isDigit bound [] nofun).of_forall fun _ _ => trivial).bind
    fun run => ?_
  intro s d t hs hrun
  obtain ⟨hall, _⟩ := hs
  cases run with
  | nil => cases hrun
  | cons c rest =>
      obtain ⟨hc, hrest⟩ := List.forall_mem_cons.mp hall
      rw [Numeral.parse?_of_digits hc hrest] at hrun
      cases hrun
      exact Int.natCast_nonneg _

theorem gives_stringRest (bound : Nat) {taken : List Char} (htaken : '"' ∉ taken) :
    Gives pre (stringRest bound taken) fun d _ => d.Readable := by
  induction bound generalizing taken pre with
  | zero => exact .throw _
  | succ bound ih =>
      rw [stringRest]
      refine (Gives.top next).bind fun o => ?_
      cases o with
      | none => exact .throw _
      | some c =>
          simp only
          split
          · refine .pure fun s _ => ?_
            rw [Datum.Readable, String.toList_ofList, List.mem_reverse]
            exact htaken
          · next hc =>
              refine ih ?_
              rw [List.mem_cons, not_or]
              exact ⟨Ne.symm hc, htaken⟩

theorem gives_boolean : Gives pre boolean fun d _ => d.Readable := by
  unfold boolean
  refine (Gives.top next).bind fun _ => (Gives.top next).bind fun o => ?_
  cases o with
  | none => exact .throw _
  | some c =>
      simp only
      split
      · exact .pure fun _ _ => trivial
      · split
        · exact .pure fun _ _ => trivial
        · exact .throw _

theorem gives_closeDotted (bound : Nat) (tail : Datum) :
    Gives (fun _ => True) (closeDotted bound tail) fun d _ => d = tail := by
  unfold closeDotted
  refine (Gives.top _).bind fun o => ?_
  cases o with
  | none => exact .throw _
  | some c =>
      simp only
      split
      · exact (Gives.top next).bind fun _ => .pure fun _ _ => rfl
      · exact .throw _

/-- The items of a list make readable pairs if none of them is a lone dot. -/
theorem ofReversed_readable {read : List Datum} {tail : Datum}
    (hread : ∀ d ∈ read, d.Readable ∧ d.isSymbol "." = false) (htail : tail.Readable) :
    (Datum.ofReversed read tail).Readable := by
  induction read generalizing tail with
  | nil => exact htail
  | cons d read ih =>
      obtain ⟨⟨hd, hdot⟩, hread⟩ := List.forall_mem_cons.mp hread
      exact ih hread ⟨hd, hdot, htail⟩

/-- By induction on the bound: data, the items of lists and the rests after dots are readable. -/
theorem gives_readable (bound : Nat) :
    (∀ pre, Gives pre (datum bound) fun d _ => d.Readable) ∧
    (∀ pre read, (∀ d ∈ read, d.Readable ∧ d.isSymbol "." = false) →
      Gives pre (items bound read) fun d _ => d.Readable) ∧
    ∀ pre, Gives pre (dottedTail bound) fun d _ => d.Readable := by
  induction bound with
  | zero => exact ⟨fun _ => .throw _, fun _ _ _ => .throw _, fun _ => .throw _⟩
  | succ bound ih =>
      obtain ⟨ihDatum, ihItems, ihTail⟩ := ih
      refine ⟨fun pre => ?_, fun pre read hread => ?_, fun pre => ?_⟩
      · rw [datum]
        refine gives_peek.bind fun o => ?_
        cases o with
        | none => exact .throw _
        | some c =>
            simp only
            split
            · exact gives_boolean
            · split
              · exact (Gives.top next).bind fun _ => gives_stringRest bound nofun
              · split
                · exact (Gives.top next).bind fun _ => ihItems _ [] nofun
                · split
                  · exact .throw _
                  · split
                    · exact gives_number bound
                    · next hdigit => exact gives_symbol (by simpa using hdigit) bound
      · rw [items]
        refine (Gives.top _).bind fun o => ?_
        cases o with
        | none => exact .throw _
        | some c =>
            simp only
            split
            · exact (Gives.top next).bind fun _ => .pure fun _ _ => ofReversed_readable hread trivial
            · refine (ihDatum _).bind fun d => ?_
              intro s r t hd hrun
              split at hrun
              · split at hrun
                · cases hrun
                · have htail : Gives (fun _ => True)
                      (do return Datum.ofReversed read (← dottedTail bound))
                      fun d _ => d.Readable :=
                    (ihTail _).bind fun tail => .pure fun _ h => ofReversed_readable hread h
                  exact htail s r t trivial hrun
              · next hdot =>
                  refine ihItems (fun _ => True) (d :: read) ?_ s r t trivial hrun
                  exact List.forall_mem_cons.mpr ⟨⟨hd, by simpa using hdot⟩, hread⟩
      · rw [dottedTail]
        refine (Gives.top _).bind fun o => ?_
        cases o with
        | none => exact .throw _
        | some c =>
            simp only
            split
            · exact .throw _
            · refine (ihDatum _).bind fun tail => ?_
              intro s r t htail hrun
              rw [gives_closeDotted bound tail s r t trivial hrun]
              exact htail

/-- Every datum that is read can be read back once it is written. -/
theorem readDatum_readable {s t : CharStream} {d : Datum}
    (h : readDatum s = (.ok (some d), t)) : d.Readable := by
  have hgives : Gives (fun _ => True) readDatum fun o _ => ∀ d ∈ o, d.Readable := by
    unfold readDatum topLevel
    refine (Gives.top get).bind fun s => (Gives.top _).bind fun o => ?_
    cases o with
    | none => exact .pure fun _ _ => nofun
    | some c =>
        simp only
        split
        · exact (Gives.top next).bind fun _ => .throw _
        · refine ((gives_readable _).1 _).bind fun d => .pure fun s hd d' hd' => ?_
          cases hd'
          exact hd
  exact hgives s _ t trivial h d rfl

end Reader

end TinyLisp
