import TinyLisp.Proofs.Text.Local
import TinyLisp.Proofs.Text.Recognition

/-!
Lines and calls of the reader.  A line is taken only when the line before is used up; behind a datum
nothing is taken but the line that its last character is on; and when the rest of a line is skipped,
reading goes on as if it started behind that line.  Main statement: `line_discipline`, for every
sequence of calls.
-/

namespace TinyLisp

open CharStream Reader Scan Text

/-! ### Lines of bytes -/

/-- The lines that bytes consist of, each with its newline; the last one may have none. -/
def byteLines : List UInt8 → List (List UInt8)
  | [] => []
  | b :: bytes =>
      if b = newlineByte then [b] :: byteLines bytes
      else
        match byteLines bytes with
        | [] => [[b]]
        | line :: lines => (b :: line) :: lines

@[simp] theorem flatten_byteLines (bytes : List UInt8) : (byteLines bytes).flatten = bytes := by
  induction bytes with
  | nil => rfl
  | cons b bytes ih =>
      rw [byteLines]
      split
      · rw [List.flatten_cons, ih, List.singleton_append]
      · split
        · next hlines =>
            rw [hlines, List.flatten_nil] at ih
            rw [← ih, List.flatten_singleton]
        · next hlines =>
            rw [hlines, List.flatten_cons] at ih
            rw [List.flatten_cons, List.cons_append, ih]

theorem byteLines_eq_cons {bytes : List UInt8} (h : bytes ≠ []) :
    byteLines bytes = (splitLine bytes).1 :: byteLines (splitLine bytes).2 := by
  induction bytes with
  | nil => exact absurd rfl h
  | cons b bytes ih =>
      rw [byteLines, splitLine_cons]
      split
      · rfl
      · cases bytes with
        | nil => rfl
        | cons b' bytes => rw [ih (List.cons_ne_nil _ _)]

example : byteLines [97, 10, 98] = [[97, 10], [98]] := by decide

/-- A line with something behind it ends with its newline. -/
theorem getLast?_splitLine {bytes : List UInt8} (h : (splitLine bytes).2 ≠ []) :
    (splitLine bytes).1.getLast? = some newlineByte := by
  induction bytes with
  | nil => exact absurd rfl h
  | cons b bytes ih =>
      rw [splitLine_cons] at h ⊢
      split
      · next hb => rw [hb, List.getLast?_singleton]
      · next hb =>
          rw [if_neg hb] at h
          rw [List.getLast?_cons, ih h, Option.getD_some]

/-- Only the last line can be without a newline. -/
theorem endsLine_of_byteLines {bytes : List UInt8} {done left : List (List UInt8)}
    (h : byteLines bytes = done ++ left) (hleft : left ≠ []) {line : List UInt8}
    (hline : line ∈ done) : EndsLine line := by
  induction done generalizing bytes with
  | nil => cases hline
  | cons first done ih =>
      have hbytes : bytes ≠ [] := by
        rintro rfl
        cases h
      rw [byteLines_eq_cons hbytes, List.cons_append, List.cons.injEq] at h
      obtain ⟨rfl, hrest⟩ := h
      rcases List.mem_cons.mp hline with rfl | hlater
      · have hbehind : (splitLine bytes).2 ≠ [] := by
          intro hnil
          rw [hnil] at hrest
          exact hleft (List.append_eq_nil_iff.mp hrest.symm).2
        intro b hb
        rw [getLast?_splitLine hbehind] at hb
        exact (Option.some.inj hb).symm
      · exact ih hrest hlater

namespace CharStream

variable {bytes : List UInt8} {s t u : CharStream} {cs : List Char}

/-- The line in use is what is left of the line last taken, if it is not used up, and the bytes not
yet taken are the lines behind it. -/
def IsAmid (bytes : List UInt8) (s : CharStream) : Prop :=
  ∃ done, byteLines bytes = done ++ byteLines s.unread.toList ∧
    s.line.toList.flatMap String.utf8EncodeChar <:+ done.getLastD []

theorem isAmid_ofBytes (bytes : List UInt8) : (ofBytes bytes).IsAmid bytes :=
  ⟨[], rfl, List.suffix_rfl⟩

theorem IsAmid.skipLine (h : s.IsAmid bytes) : s.skipLine.IsAmid bytes := by
  obtain ⟨done, hlines, _⟩ := h
  exact ⟨done, hlines, List.nil_suffix⟩

theorem IsAmid.advances (h : s.IsAmid bytes) (hadvances : Advances s cs t) : t.IsAmid bytes := by
  induction hadvances with
  | refl => exact h
  | take hline _ ih =>
      obtain ⟨done, hlines, hsuffix⟩ := h
      refine ih ⟨done, hlines, List.IsSuffix.trans ?_ hsuffix⟩
      rw [hline, Counted.toList_tail, hline, List.tail_cons, List.flatMap_cons]
      exact List.suffix_append _ _
  | @pull s t line cs _ hused hunread hdecode _ ih =>
      obtain ⟨done, hlines, _⟩ := h
      refine ih ⟨done ++ [(splitLine s.unread.toList).1], ?_, ?_⟩
      · rw [hlines, byteLines_eq_cons hunread, List.append_assoc]
        rfl
      · refine ⟨[], ?_⟩
        rw [Counted.toList_ofList, encoded_of_decode? hdecode, List.getLastD_concat,
          List.nil_append]
  | finish _ _ _ ih => exact ih h

theorem IsAmid.drops (h : s.IsAmid bytes) (hdrops : Drops s t) : t.IsAmid bytes := by
  obtain ⟨done, hlines, _⟩ := h
  obtain ⟨_, hused, hunread, rfl⟩ := hdrops
  refine ⟨done ++ [(splitLine s.unread.toList).1], ?_, ?_⟩
  · rw [hlines, byteLines_eq_cons hunread, List.append_assoc]
    rfl
  · rw [hused]
    exact List.nil_suffix

/-- Keeping pace, a scan stays amid the lines. -/
theorem IsAmid.paced {α : Type} {outcome : Except Error α × CharStream} (h : s.IsAmid bytes)
    (hpaced : s.Paced outcome) : outcome.2.IsAmid bytes := by
  rcases hpaced with ⟨cs, hadvances⟩ | ⟨_, cs, u, hadvances, hdrops⟩
  · exact h.advances hadvances
  · exact (h.advances hadvances).drops hdrops

/-- Where bytes are left behind the line in use, that line ends with a newline. -/
theorem IsAmid.eq_newline (h : s.IsAmid bytes) (hunread : s.unread.toList ≠ []) {c : Char}
    (hline : s.line.toList = [c]) : c = '\n' := by
  obtain ⟨done, hlines, hsuffix⟩ := h
  rw [hline, List.flatMap_singleton] at hsuffix
  have hleft : byteLines s.unread.toList ≠ [] := by
    rw [byteLines_eq_cons hunread]
    exact List.cons_ne_nil _ _
  have hends : EndsLine (done.getLastD []) := by
    rcases List.eq_nil_or_concat done with rfl | ⟨done, line, rfl⟩
    · exact endsLine_nil
    · rw [List.concat_eq_append] at hlines ⊢
      rw [List.getLastD_concat]
      exact endsLine_of_byteLines hlines hleft List.mem_concat_self
  have hnonempty : String.utf8EncodeChar c ≠ [] := String.utf8EncodeChar_ne_nil
  have hlast := hends.suffix hsuffix _ (List.getLast?_eq_some_getLast hnonempty)
  have hmem := List.getLast_mem hnonempty
  rw [hlast] at hmem
  exact newlineByte_mem_iff.mp hmem

end CharStream

theorem eq_nil_of_encoded {cs : List Char} (h : cs.flatMap String.utf8EncodeChar = []) :
    cs = [] := by
  have hle := length_le_encoded cs
  rw [h] at hle
  exact List.eq_nil_of_length_eq_zero (Nat.le_zero.mp hle)

/-! ### Data at the end of what was taken -/

namespace Reader

variable {s t : CharStream} {cs : List Char} {d : Datum}

/-- A datum that was read from valid text is behind its first gap. -/
theorem denotes_of_readDatum (h : s.Spells cs) (hrun : readDatum s = (.ok (some d), t)) :
    ∃ start rest, Gap cs start ∧ Denotes (.datum d) start rest ∧ t.Spells rest := by
  obtain ⟨start, hgap, hbare⟩ := exists_gap cs
  rcases topLevel_cases hbare with rfl | ⟨d', rest, hd⟩ | ⟨cause, rest, hfails⟩
  · obtain ⟨t', ht', _⟩ := reads_readDatum_none hgap s h
    rw [hrun] at ht'
    cases ht'
  · obtain ⟨t', ht', hrest⟩ := reads_readDatum_some hgap hd s h
    rw [hrun] at ht'
    cases ht'
    exact ⟨start, rest, hgap, hd, hrest⟩
  · obtain ⟨t', ht', _⟩ := answers_readDatum (hfails cs hgap) s h
    rw [hrun] at ht'
    cases ht'

/-- The characters handed out for a datum are a gap and what denotes the datum, in front of what is
left of the line in use. -/
theorem exists_denotes (hcoherent : s.Coherent) (hrun : readDatum s = (.ok (some d), t)) :
    ∃ cs start, Advances s cs t ∧ Gap (cs ++ t.line.toList) start ∧
      Denotes (.datum d) start t.line.toList := by
  obtain ⟨cs, hadvances⟩ : ∃ cs, Advances s cs t := by
    have hpaced := readDatum_paced s
    rw [hrun] at hpaced
    exact hpaced.resolve_right fun hdrops => by cases hdrops.1
  obtain ⟨later, hchars, hunread⟩ := hadvances.spelled
  -- The stream that ends where the reader stopped taking lines.
  let short : CharStream := { s with unread := .ofList (later.flatMap String.utf8EncodeChar) }
  have hwhole : short.followedBy t.unread.toList = s := followedBy_eq hunread.symm
  have hspells : short.Spells (cs ++ t.line.toList) := by
    refine ⟨later, hchars.symm, rfl, fun hend => eq_nil_of_encoded ?_⟩
    rw [hcoherent hend] at hunread
    exact (List.append_eq_nil_iff.mp hunread.symm).1
  have hleft : t.unread.toList <:+
      (readDatum (short.followedBy t.unread.toList)).2.unread.toList := by
    refine ⟨[], ?_⟩
    rw [hwhole, hrun, List.nil_append]
  have hcurtailed := readDatum_curtailed hleft
  rw [hwhole, hrun, Prod.mk.injEq] at hcurtailed
  obtain ⟨hanswer, ht⟩ := hcurtailed
  obtain ⟨start, rest, hgap, hd, hrest⟩ := denotes_of_readDatum hspells (Prod.ext hanswer.symm rfl)
  refine ⟨cs, start, hadvances, hgap, ?_⟩
  obtain ⟨later', hrest', hunread', _⟩ := hrest
  have hline := congrArg CharStream.line ht
  change t.line = (readDatum short).2.line at hline
  have hbytes := congrArg (·.unread.toList) ht
  change _ = (readDatum short).2.unread.toList ++ t.unread.toList at hbytes
  obtain rfl : later' = [] := by
    refine eq_nil_of_encoded ?_
    rw [← hunread']
    exact List.append_left_eq_self.mp hbytes.symm
  rwa [hrest', List.append_nil, ← hline] at hd

end Reader

namespace CharStream

variable {bytes : List UInt8} {s t : CharStream} {c : Char} {d : Datum}

/-- Once a character other than a newline was handed out, looking on takes no other line: what is
left is left behind that character. -/
theorem IsAmid.at_last (h : s.IsAmid bytes) (hadvances : Advances s [c] t) (hc : c ≠ '\n') :
    IsAmid bytes { t with line := .ofList (c :: t.line.toList) } := by
  obtain ⟨u, line, hfirst, hline, hsecond⟩ := hadvances.at_take
  have hu := h.advances hfirst
  rcases hsecond.of_nil rfl with ⟨hline', hunread⟩ | ⟨hused, hunread⟩
  · obtain ⟨done, hlines, hsuffix⟩ := hu
    rw [Counted.toList_tail, hline, List.tail_cons] at hline'
    refine ⟨done, by rw [hlines, hunread], ?_⟩
    rwa [Counted.toList_ofList, hline', ← hline]
  · -- A line was there to be taken, so the character was the last one of a line before it.
    rw [Counted.toList_tail, hline, List.tail_cons] at hused
    rw [hused] at hline
    exact absurd (hu.eq_newline hunread hline) hc

/-- Behind a datum nothing is taken but the line that its last character is on. -/
theorem IsAmid.at_datum (h : s.IsAmid bytes) (hcoherent : s.Coherent)
    (hrun : readDatum s = (.ok (some d), t)) :
    ∃ gap init c, Advances s (gap ++ init ++ [c]) t ∧
      Gap (gap ++ (init ++ c :: t.line.toList)) (init ++ c :: t.line.toList) ∧
      Denotes (.datum d) (init ++ c :: t.line.toList) t.line.toList ∧
      IsAmid bytes { t with line := .ofList (c :: t.line.toList) } := by
  obtain ⟨cs, start, hadvances, hgap, hd⟩ := exists_denotes hcoherent hrun
  obtain ⟨init, c, rfl, hc⟩ := hd.last
  obtain ⟨gap, hchars⟩ := hgap.suffix
  obtain rfl : gap ++ init ++ [c] = cs := by
    rw [List.append_cons, ← List.append_assoc, ← List.append_assoc] at hchars
    exact List.append_cancel_right hchars
  obtain ⟨u, hfirst, hlast⟩ := hadvances.split
  rw [← hchars] at hgap
  exact ⟨gap, init, c, hadvances, hgap, hd, (h.advances hfirst).at_last hlast hc⟩

end CharStream

/-! ### Sequences of calls -/

/-- What a reader can be asked for: the next datum, or to drop what is left of the line in use. -/
inductive ReaderCall where
  | read
  | skipLine
  deriving DecidableEq, Repr

namespace CharStream

/-- What a call answers, if it is one that answers, and what it leaves. -/
def call (s : CharStream) : ReaderCall → Option (Except Error (Option Datum)) × CharStream
  | .read => (some (readDatum s).1, (readDatum s).2)
  | .skipLine => (none, s.skipLine)

/-- What some calls leave. -/
def after (s : CharStream) (calls : List ReaderCall) : CharStream :=
  calls.foldl (fun t c => (t.call c).2) s

/-- What some calls answer. -/
def answers (s : CharStream) : List ReaderCall → List (Option (Except Error (Option Datum)))
  | [] => []
  | c :: calls => (s.call c).1 :: (s.call c).2.answers calls

variable {bytes : List UInt8} {s t : CharStream}

/-- What both kinds of calls preserve, any sequence of calls preserves. -/
theorem after_of {P : CharStream → Prop} (hread : ∀ s, P s → P (readDatum s).2)
    (hskip : ∀ s, P s → P s.skipLine) (h : P s) (calls : List ReaderCall) : P (s.after calls) := by
  induction calls generalizing s with
  | nil => exact h
  | cons c calls ih =>
      cases c with
      | read => exact ih (hread s h)
      | skipLine => exact ih (hskip s h)

theorem isAmid_after (bytes : List UInt8) (calls : List ReaderCall) :
    ((ofBytes bytes).after calls).IsAmid bytes :=
  after_of (fun s h => h.paced (readDatum_paced s)) (fun _ h => h.skipLine) (isAmid_ofBytes bytes)
    calls

theorem coherent_after (bytes : List UInt8) (calls : List ReaderCall) :
    ((ofBytes bytes).after calls).Coherent :=
  after_of (fun _ h => readDatum_coherent h) (fun _ h => h) (coherent_ofBytes bytes) calls

theorem ended_after (bytes : List UInt8) (calls : List ReaderCall) :
    let s := (ofBytes bytes).after calls
    s.exhausted = true → s.Ended :=
  after_of (P := fun s => s.exhausted = true → s.Ended) (fun s h => (readDatum_paced s).ended h)
    (fun _ _ hend => ⟨rfl, hend⟩) (fun hend => absurd hend Bool.false_ne_true) calls

theorem spells_skipLine (h : s.unread.toList = []) : s.skipLine.Spells [] :=
  ⟨[], rfl, h, fun _ => rfl⟩

/-- Where nothing is left, all calls find the end. -/
theorem answers_eq_of_spells_nil (hs : s.Spells []) (ht : t.Spells []) (calls : List ReaderCall) :
    s.answers calls = t.answers calls := by
  induction calls generalizing s t with
  | nil => rfl
  | cons c calls ih =>
      cases c with
      | read =>
          obtain ⟨s', hrun, hs'⟩ := reads_readDatum_none (.none []) s hs
          obtain ⟨t', hrun', ht'⟩ := reads_readDatum_none (.none []) t ht
          rw [answers, answers, call, call, hrun, hrun', ih hs' ht']
      | skipLine =>
          obtain ⟨later, hline, hunread, _⟩ := hs
          obtain ⟨later', hline', hunread', _⟩ := ht
          obtain rfl := (List.append_eq_nil_iff.mp hline.symm).2
          obtain rfl := (List.append_eq_nil_iff.mp hline'.symm).2
          rw [answers, answers, call, call, ih (spells_skipLine hunread) (spells_skipLine hunread')]

/-- When the rest of a line was skipped, calls answer as they would from behind that line. -/
theorem answers_skipLine (h : s.Coherent) (calls : List ReaderCall) :
    s.skipLine.answers calls = (ofBytes s.unread.toList).answers calls := by
  cases hend : s.exhausted with
  | false =>
      have hfresh : s.skipLine = ofBytes s.unread.toList := by
        rw [CharStream.skipLine, ofBytes, Counted.ofList_toList, hend]
      rw [hfresh]
  | true =>
      have hnil := h hend
      rw [hnil]
      exact answers_eq_of_spells_nil (spells_skipLine hnil) (spells_ofText "") calls

/-- A line is taken exactly when without it, and all behind it, reading would use up everything and
meet the end. -/
theorem taken_iff_ended {before after : List UInt8} (hcoherent : s.Coherent)
    (hended : s.exhausted = true → s.Ended) (hunread : s.unread.toList = before ++ after)
    (hbefore : EndsLine before) (hafter : after ≠ []) :
    (¬ after <:+ (readDatum s).2.unread.toList) ↔
      (readDatum { s with unread := .ofList before }).2.Ended := by
  let short : CharStream := { s with unread := .ofList before }
  have hwhole : short.followedBy after = s := followedBy_eq hunread.symm
  -- Away from the end of the shorter bytes both readings come to the same, and so they do when
  -- nothing is taken behind them.
  constructor
  · intro htaken
    refine (readDatum_paced short).ended (fun hend => ⟨(hended hend).line, hend⟩) ?_
    cases haway : (readDatum short).2.exhausted with
    | true => rfl
    | false =>
        refine absurd ?_ htaken
        rw [← hwhole, readDatum_followedBy ⟨haway, fun _ => hbefore⟩]
        exact List.suffix_append _ _
  · intro hshort hleft
    have hcoherent' := readDatum_coherent hcoherent
    rw [← hwhole] at hleft hcoherent'
    rw [readDatum_curtailed hleft] at hcoherent'
    exact hafter (List.append_eq_nil_iff.mp (hcoherent' hshort.exhausted)).2

/-- After any calls the reader is amid the lines of its bytes.  Reading takes a line only when the
line before is used up, and when it could not go on without it; when it comes to a datum, nothing is
taken behind the line that the last character of the datum is on; and skipping the rest of the line
leaves what a new reader of the bytes not yet taken starts with. -/
theorem line_discipline (bytes : List UInt8) (calls : List ReaderCall) :
    let s := (ofBytes bytes).after calls
    s.IsAmid bytes ∧ s.Paced (readDatum s) ∧
      (∀ before after, s.unread.toList = before ++ after → EndsLine before → after ≠ [] →
        ((¬ after <:+ (readDatum s).2.unread.toList) ↔
          (readDatum { s with unread := .ofList before }).2.Ended)) ∧
      (∀ d t, readDatum s = (.ok (some d), t) →
        ∃ gap init c, Advances s (gap ++ init ++ [c]) t ∧
          Gap (gap ++ (init ++ c :: t.line.toList)) (init ++ c :: t.line.toList) ∧
          Denotes (.datum d) (init ++ c :: t.line.toList) t.line.toList ∧
          IsAmid bytes { t with line := .ofList (c :: t.line.toList) }) ∧
      ∀ later, s.skipLine.answers later = (ofBytes s.unread.toList).answers later := by
  intro s
  have hamid : s.IsAmid bytes := isAmid_after bytes calls
  have hcoherent : s.Coherent := coherent_after bytes calls
  have hended : s.exhausted = true → s.Ended := ended_after bytes calls
  exact ⟨hamid, readDatum_paced s, fun before after => taken_iff_ended hcoherent hended,
    fun d t => hamid.at_datum hcoherent, answers_skipLine hcoherent⟩

/-- In `(a .`, `) b`, `c`, `d`, each on a line of its own, reading fails at the parenthesis behind
the dot; then the rest of its line is skipped, the next line holds a datum, and the last is left. -/
theorem line_discipline_failure :
    let bytes : List UInt8 := [40, 97, 32, 46, 10, 41, 32, 98, 10, 99, 10, 100]
    let s := (ofBytes bytes).after [.read, .skipLine]
    let t : CharStream := ⟨.ofList ['\n'], .ofList [100], false⟩
    ¬ (readDatum { s with unread := .ofList [99, 10] }).2.Ended ∧
      ∃ gap init c, Advances s (gap ++ init ++ [c]) t ∧
        Gap (gap ++ (init ++ c :: t.line.toList)) (init ++ c :: t.line.toList) ∧
        Denotes (.datum (.symbol "c")) (init ++ c :: t.line.toList) t.line.toList ∧
        IsAmid bytes { t with line := .ofList (c :: t.line.toList) } := by
  have hstart : (ofBytes [40, 97, 32, 46, 10, 41, 32, 98, 10, 99, 10, 100]).after
      [.read, .skipLine] = ⟨.ofList [], .ofList [99, 10, 100], false⟩ := by rfl
  intro bytes s t
  obtain ⟨_, _, htaken, hdatum, _⟩ := line_discipline bytes [.read, .skipLine]
  have hs : s = ⟨.ofList [], .ofList [99, 10, 100], false⟩ := hstart
  have hrun : readDatum s = (.ok (some (.symbol "c")), t) := by
    rw [hs]
    rfl
  refine ⟨fun hended => ?_, hdatum _ _ hrun⟩
  refine (htaken [99, 10] [100] (congrArg (·.unread.toList) hs) ?_ (by decide)).mpr hended ?_
  · rintro _ ⟨⟩
    rfl
  · rw [hrun]
    exact List.suffix_rfl

end CharStream

end TinyLisp
