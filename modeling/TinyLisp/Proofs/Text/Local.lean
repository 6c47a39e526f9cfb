import TinyLisp.Proofs.Text.Moves

/-!
Reading looks at no more than it needs.  A scan takes lines off the front of the bytes, each when
the line before is used up.  As long as it does not come to the last of them, bytes behind them make
no difference; nor do those that it leaves.  Main statements: `readDatum_paced`,
`readDatum_followedBy` and `readDatum_curtailed`.
-/

namespace TinyLisp

open CharStream Reader Text

theorem splitLine_cons (b : UInt8) (bytes : List UInt8) :
    splitLine (b :: bytes) =
      if b = newlineByte then ([b], bytes)
      else (b :: (splitLine bytes).1, (splitLine bytes).2) := by
  by_cases hb : b = newlineByte <;> simp [splitLine, hb]

/-- Bytes with no line begun behind their last newline. -/
def EndsLine (bytes : List UInt8) : Prop :=
  ∀ b ∈ bytes.getLast?, b = newlineByte

theorem endsLine_nil : EndsLine [] := by
  intro b hb
  cases hb

theorem EndsLine.suffix {bytes rest : List UInt8} (h : EndsLine bytes) (hrest : rest <:+ bytes) :
    EndsLine rest := by
  obtain ⟨before, rfl⟩ := hrest
  intro b hb
  refine h b ?_
  rw [List.getLast?_append, Option.mem_def.mp hb]
  rfl

/-- A line with something behind it, or with its newline, is complete. -/
theorem splitLine_append_of_endsLine {bytes : List UInt8} (hbytes : bytes ≠ [])
    (h : (splitLine bytes).2 = [] → EndsLine bytes) (more : List UInt8) :
    splitLine (bytes ++ more) = ((splitLine bytes).1, (splitLine bytes).2 ++ more) := by
  induction bytes with
  | nil => exact absurd rfl hbytes
  | cons b bytes ih =>
      rw [splitLine_cons] at h
      rw [List.cons_append, splitLine_cons, splitLine_cons]
      split
      · rfl
      · next hb =>
          rw [if_neg hb] at h
          cases bytes with
          | nil => exact absurd (h rfl b rfl) hb
          | cons b' bytes =>
              have hends := fun hnil => (h hnil).suffix (List.suffix_cons b (b' :: bytes))
              rw [ih (List.cons_ne_nil _ _) hends]

/-- Where nothing that follows is taken, it makes no difference to the first line. -/
theorem splitLine_append_of_suffix {bytes more : List UInt8} (hbytes : bytes ≠ [])
    (h : more <:+ (splitLine (bytes ++ more)).2) :
    splitLine (bytes ++ more) = ((splitLine bytes).1, (splitLine bytes).2 ++ more) := by
  induction bytes with
  | nil => exact absurd rfl hbytes
  | cons b bytes ih =>
      rw [List.cons_append, splitLine_cons] at h ⊢
      rw [splitLine_cons]
      split
      · rfl
      · next hb =>
          rw [if_neg hb] at h
          cases bytes with
          | nil =>
              have hshorter (hmore : more ≠ []) : False :=
                Nat.not_le.mpr (length_splitLine_snd_lt hmore) h.length_le
              obtain rfl : more = [] := Decidable.byContradiction hshorter
              rfl
          | cons b' bytes => rw [ih (List.cons_ne_nil _ _) h]

namespace CharStream

/-- The stream with more bytes behind those not yet taken. -/
def followedBy (s : CharStream) (more : List UInt8) : CharStream :=
  { s with unread := s.unread.append more }

/-- What is kept of the bytes, followed by the rest of them. -/
theorem followedBy_eq {s : CharStream} {kept more : List UInt8}
    (h : kept ++ more = s.unread.toList) :
    ({ s with unread := .ofList kept } : CharStream).followedBy more = s :=
  congrArg (CharStream.mk s.line · s.exhausted) (Counted.eq_of_toList h)

theorem followedBy_nil (s : CharStream) : s.followedBy [] = s := by
  have hunread : s.unread.append [] = s.unread := Counted.eq_of_toList (List.append_nil _)
  rw [followedBy, hunread]

/-- From `s` to `t` the end of the bytes was not met, and the last of them was not taken unless it
ends a line. -/
structure KeepsAway (s t : CharStream) : Prop where
  exhausted : t.exhausted = false
  unread : t.unread.toList = [] → EndsLine s.unread.toList

end CharStream

/-- A scan that takes lines off the front of the bytes, each when the line before is used up.  It
does the same when more bytes follow, if it keeps away from the end, and when bytes that it leaves
do not follow. -/
structure Scan.Local {α : Type} (m : Scan α) : Prop where
  paced : ∀ s : CharStream, s.Paced (m s)
  followed : ∀ s more, KeepsAway s (m s).2 →
    m (s.followedBy more) = ((m s).1, (m s).2.followedBy more)
  curtailed : ∀ s more, more <:+ (m (s.followedBy more)).2.unread.toList →
    m (s.followedBy more) = ((m s).1, (m s).2.followedBy more)

namespace Scan.Local

variable {α β : Type}

theorem pure (a : α) : Local (Pure.pure a : Scan α) :=
  ⟨fun s => .inl ⟨[], .refl s⟩, fun _ _ _ => rfl, fun _ _ _ => rfl⟩

theorem throw (e : Error) : Local (MonadExcept.throw e : Scan α) :=
  ⟨fun s => .inl ⟨[], .refl s⟩, fun _ _ _ => rfl, fun _ _ _ => rfl⟩

/-- A scan that only touches the line in use, and takes at most a character of it. -/
theorem of_line {m : Scan α} (f : Counted Char → Except Error α × Counted Char)
    (h : ∀ s, m s = ((f s.line).1, { s with line := (f s.line).2 }))
    (hf : ∀ line, (f line).2 = line ∨ (f line).2 = line.tail) : Local m := by
  have hmore (s : CharStream) (more : List UInt8) :
      m (s.followedBy more) = ((m s).1, (m s).2.followedBy more) := by
    rw [h, h]
    rfl
  refine ⟨fun s => ?_, fun s more _ => hmore s more, fun s more _ => hmore s more⟩
  rw [h]
  exact .inl (advances_line s (hf s.line))

/-- Where the sequel keeps away from the end, so does what it follows, and what the sequel leaves
was left for it. -/
theorem bind {m : Scan α} {f : α → Scan β} (hm : Local m) (hf : ∀ a, Local (f a)) :
    Local (m >>= f) := by
  have happly := bind_apply m f
  refine ⟨fun s => ?_, fun s more hkeeps => ?_, fun s more hleft => ?_⟩
  · have hpaced := hm.paced s
    rw [happly]
    revert hpaced
    rcases m s with ⟨e | a, u⟩
    · rintro (hadvances | ⟨⟨⟩, hdrops⟩)
      · exact .inl hadvances
      · exact .inr ⟨rfl, hdrops⟩
    · rintro (⟨cs, hadvances⟩ | ⟨⟨⟩, _⟩)
      exact hadvances.paced ((hf a).paced u)
  · have hsuffix := (hm.paced s).suffix
    have hfollowed := hm.followed s more
    rw [happly] at hkeeps ⊢
    rw [happly]
    revert hsuffix hfollowed hkeeps
    rcases m s with ⟨_ | a, u⟩
    · intro hkeeps _ hfollowed
      rw [hfollowed hkeeps]
    · intro hkeeps hsuffix hfollowed
      dsimp only at hkeeps hsuffix hfollowed ⊢
      have hlater := ((hf a).paced u).suffix
      have hfirst : KeepsAway s u := by
        refine ⟨?_, fun hnil => hkeeps.unread ?_⟩
        · cases hend : u.exhausted with
          | false => rfl
          | true => rw [← hkeeps.exhausted, ((hf a).paced u).exhausted hend]
        · rw [hnil] at hlater
          exact List.suffix_nil.mp hlater
      have hsecond : KeepsAway u (f a u).2 :=
        ⟨hkeeps.exhausted, fun hnil => (hkeeps.unread hnil).suffix hsuffix⟩
      rw [hfollowed hfirst]
      exact (hf a).followed u more hsecond
  · have hcurtailed := hm.curtailed s more
    rw [happly] at hleft ⊢
    rw [happly]
    revert hleft hcurtailed
    rcases hlonger : m (s.followedBy more) with ⟨_ | a, v⟩
    · intro hleft hcurtailed
      have hshorter := hcurtailed hleft
      revert hshorter
      rcases m s with ⟨_ | a, u⟩ <;> rintro ⟨⟩
      rfl
    · intro hleft hcurtailed
      have hshorter := hcurtailed (hleft.trans ((hf a).paced v).suffix)
      revert hshorter
      rcases m s with ⟨_ | a, u⟩ <;> rintro ⟨⟩
      exact (hf a).curtailed u more hleft

end Scan.Local

namespace CharStream

open Scan

/-- A line is taken only where none is in use. -/
theorem fill_cases (s : CharStream) :
    (∃ t, fill s = (.ok (), t) ∧ Advances s [] t) ∨
      ∃ t, fill s = (.error (.io .invalidText), t) ∧ Drops s t := by
  rw [fill_apply]
  split
  · next hneeded =>
      obtain ⟨hused, hbefore⟩ : s.line.toList = [] ∧ s.exhausted = false := by simpa using hneeded
      split
      · next hempty => exact .inl ⟨_, rfl, .finish hused (List.isEmpty_iff.mp hempty) (.refl _)⟩
      · next hempty =>
          have hunread : s.unread.toList ≠ [] := fun hnil => hempty (List.isEmpty_iff.mpr hnil)
          split
          · next hdecode => exact .inl ⟨_, rfl, .pull hbefore hused hunread hdecode (.refl _)⟩
          · exact .inr ⟨_, rfl, hbefore, hused, hunread, rfl⟩
  · exact .inl ⟨s, rfl, .refl s⟩

theorem paced_fill (s : CharStream) : s.Paced (fill s) := by
  rcases fill_cases s with ⟨t, hfill, hadvances⟩ | ⟨t, hfill, hdrops⟩
  · rw [hfill]
    exact .inl ⟨[], hadvances⟩
  · rw [hfill]
    exact .inr ⟨rfl, [], s, .refl s, hdrops⟩

/-- What follows the next line does not matter to it. -/
theorem fill_followedBy {s : CharStream} {more : List UInt8}
    (h : s.line.toList = [] → s.exhausted = false → s.unread.toList ≠ [] ∧
      splitLine (s.unread.toList ++ more) =
        ((splitLine s.unread.toList).1, (splitLine s.unread.toList).2 ++ more)) :
    fill (s.followedBy more) = ((fill s).1, (fill s).2.followedBy more) := by
  have hfill := fill_apply s
  have hlonger := fill_apply (s.followedBy more)
  by_cases hneeded : (s.line.toList.isEmpty && !s.exhausted) = true
  · obtain ⟨hused, hbefore⟩ : s.line.toList = [] ∧ s.exhausted = false := by simpa using hneeded
    obtain ⟨hunread, hsplit⟩ := h hused hbefore
    have hnonempty : ¬ s.unread.toList.isEmpty = true := fun hnil =>
      hunread (List.isEmpty_iff.mp hnil)
    have hnonempty' : ¬ (s.followedBy more).unread.toList.isEmpty = true := fun hnil =>
      hunread (List.append_eq_nil_iff.mp (List.isEmpty_iff.mp hnil)).1
    have htake : (takeLine (s.followedBy more).unread).2 = (takeLine s.unread).2.append more :=
      Counted.eq_of_toList (congrArg Prod.snd hsplit)
    have hline : (splitLine (s.followedBy more).unread.toList).1 =
        (splitLine s.unread.toList).1 := by
      change (splitLine (s.unread.toList ++ more)).1 = _
      rw [hsplit]
    rw [if_pos hneeded, if_neg hnonempty] at hfill
    rw [if_pos (by exact hneeded), if_neg hnonempty', hline, htake] at hlonger
    rw [hlonger, hfill]
    split <;> rfl
  · rw [if_neg hneeded] at hfill
    rw [if_neg (by exact hneeded)] at hlonger
    rw [hlonger, hfill]

/-- The bytes that are left when a line was needed and there was one. -/
theorem unread_fill {s : CharStream} (hused : s.line.toList = []) (hbefore : s.exhausted = false)
    (hunread : s.unread.toList ≠ []) :
    (fill s).2.unread.toList = (splitLine s.unread.toList).2 := by
  rw [fill_apply, if_pos (by simp [hused, hbefore]), if_neg (by simpa using hunread)]
  split <;> rfl

/-- A line is taken whole where something is left behind it, or where it ends. -/
theorem local_fill : Local fill := by
  refine ⟨paced_fill, fun s more hkeeps => ?_, fun s more hleft => ?_⟩
  · refine fill_followedBy fun hused hbefore => ?_
    have hunread : s.unread.toList ≠ [] := by
      intro hnil
      have hend := hkeeps.exhausted
      rw [fill_apply, if_pos (by simp [hused, hbefore]), if_pos (by simpa using hnil)] at hend
      cases hend
    refine ⟨hunread, splitLine_append_of_endsLine hunread (fun hnil => hkeeps.unread ?_) more⟩
    rw [unread_fill hused hbefore hunread, hnil]
  · by_cases hmore : more = []
    · rw [hmore, followedBy_nil, followedBy_nil]
      rfl
    refine fill_followedBy fun hused hbefore => ?_
    have hlonger : (s.followedBy more).unread.toList ≠ [] := fun hnil =>
      hmore (List.append_eq_nil_iff.mp hnil).2
    rw [unread_fill (s := s.followedBy more) hused hbefore hlonger] at hleft
    have hunread : s.unread.toList ≠ [] := by
      intro hnil
      change more <:+ (splitLine (s.unread.toList ++ more)).2 at hleft
      rw [hnil, List.nil_append] at hleft
      exact Nat.not_le.mpr (length_splitLine_snd_lt hmore) hleft.length_le
    exact ⟨hunread, splitLine_append_of_suffix hunread hleft⟩

theorem local_peek : Local peek := by
  unfold peek
  exact .bind local_fill fun _ =>
    .of_line (fun line => (.ok line.toList.head?, line)) (fun _ => rfl) fun _ => .inl rfl

theorem local_next : Local next := by
  unfold next
  exact .bind local_peek fun c =>
    .of_line (fun line => (.ok c, line.tail)) (fun _ => rfl) fun _ => .inr rfl

end CharStream

/-! ### The functions of the reader -/

/-- What scans have as soon as their parts have it, and have by looking at a character and by taking
one.  Nothing is asked of the complaint about an unmatched parenthesis, for no token ends in it. -/
structure Scan.Compositional (P : {α : Type} → Scan α → Prop) : Prop where
  pure : ∀ {α : Type} (a : α), P (Pure.pure a : Scan α)
  throw : ∀ {α : Type} {e : Error}, e ≠ .malformed .unmatchedClose →
    P (MonadExcept.throw e : Scan α)
  bind : ∀ {α β : Type} {m : Scan α} {f : α → Scan β}, P m → (∀ a, P (f a)) → P (m >>= f)
  peek : P peek
  next : P next

namespace Scan.Compositional

variable {P : {α : Type} → Scan α → Prop}

theorem ite (_ : Compositional P) {α : Type} {p : Prop} [Decidable p] {m n : Scan α} (hm : P m)
    (hn : P n) : P (if p then m else n) := by
  split
  · exact hm
  · exact hn

theorem skipComment (h : Compositional P) (bound : Nat) : P (Reader.skipComment bound) := by
  induction bound with
  | zero => exact h.throw (by simp)
  | succ bound ih =>
      rw [Reader.skipComment]
      refine h.bind h.next fun o => ?_
      cases o with
      | none => exact h.pure _
      | some c => exact h.ite (h.pure _) ih

theorem skipAtmosphere (h : Compositional P) (bound : Nat) : P (Reader.skipAtmosphere bound) := by
  induction bound with
  | zero => exact h.throw (by simp)
  | succ bound ih =>
      rw [Reader.skipAtmosphere]
      refine h.bind h.peek fun o => ?_
      cases o with
      | none => exact h.pure _
      | some c =>
          have hcomment := h.bind (h.skipComment bound) fun _ => ih
          have hblank := h.bind h.next fun _ => ih
          exact h.ite hcomment (h.ite hblank (h.pure _))

theorem takeRun (h : Compositional P) (p : Char → Bool) (bound : Nat) (taken : List Char) :
    P (Reader.takeRun p bound taken) := by
  induction bound generalizing taken with
  | zero => exact h.throw (by simp)
  | succ bound ih =>
      rw [Reader.takeRun]
      refine h.bind h.peek fun o => ?_
      cases o with
      | none => exact h.pure _
      | some c => exact h.ite (h.bind h.next fun _ => ih (c :: taken)) (h.pure _)

theorem boolean (h : Compositional P) : P Reader.boolean := by
  unfold Reader.boolean
  refine h.bind h.next fun _ => h.bind h.next fun o => ?_
  cases o with
  | none => exact h.throw (by simp)
  | some c => exact h.ite (h.pure _) (h.ite (h.pure _) (h.throw (by simp)))

theorem number (h : Compositional P) (bound : Nat) : P (Reader.number bound) := by
  unfold Reader.number
  refine h.bind (h.takeRun _ bound []) fun digits => ?_
  cases Numeral.parse? digits with
  | none => exact h.throw (by simp)
  | some n => exact h.pure _

theorem stringRest (h : Compositional P) (bound : Nat) (taken : List Char) :
    P (Reader.stringRest bound taken) := by
  induction bound generalizing taken with
  | zero => exact h.throw (by simp)
  | succ bound ih =>
      rw [Reader.stringRest]
      refine h.bind h.next fun o => ?_
      cases o with
      | none => exact h.throw (by simp)
      | some c => exact h.ite (h.pure _) (ih (c :: taken))

theorem string (h : Compositional P) (bound : Nat) : P (Reader.string bound) :=
  h.bind h.next fun _ => h.stringRest bound []

theorem symbol (h : Compositional P) (bound : Nat) : P (Reader.symbol bound) := by
  unfold Reader.symbol
  exact h.bind (h.takeRun _ bound []) fun name => h.ite (h.throw (by simp)) (h.pure _)

theorem closeDotted (h : Compositional P) (bound : Nat) (tail : Datum) :
    P (Reader.closeDotted bound tail) := by
  unfold Reader.closeDotted
  refine h.bind (h.skipAtmosphere bound) fun o => ?_
  cases o with
  | none => exact h.throw (by simp)
  | some c => exact h.ite (h.bind h.next fun _ => h.pure _) (h.throw (by simp))

end Scan.Compositional

namespace Reader

open Scan

theorem compositional_local : Compositional Local where
  pure := .pure
  throw _ := .throw _
  bind := .bind
  peek := local_peek
  next := local_next

/-- The three functions for data call each other within smaller bounds. -/
theorem local_data (bound : Nat) :
    Local (datum bound) ∧ (∀ read, Local (items bound read)) ∧ Local (dottedTail bound) := by
  have hscans := compositional_local
  induction bound with
  | zero => exact ⟨.throw _, fun _ => .throw _, .throw _⟩
  | succ bound ih =>
      obtain ⟨hdatum, hitems, htail⟩ := ih
      refine ⟨?_, fun read => ?_, ?_⟩
      · rw [datum]
        refine .bind local_peek fun o => ?_
        cases o with
        | none => exact .throw _
        | some c =>
            have hlist := Local.bind local_next fun _ => hitems []
            refine hscans.ite hscans.boolean (hscans.ite (hscans.string bound) ?_)
            refine hscans.ite hlist (hscans.ite (.throw _) ?_)
            exact hscans.ite (hscans.number bound) (hscans.symbol bound)
      · rw [items]
        refine (hscans.skipAtmosphere bound).bind fun o => ?_
        cases o with
        | none => exact .throw _
        | some c =>
            refine hscans.ite (.bind local_next fun _ => .pure _) (hdatum.bind fun d => ?_)
            have hdotted := htail.bind fun tail => .pure (Datum.ofReversed read tail)
            exact hscans.ite (hscans.ite (.throw _) hdotted) (hitems (d :: read))
      · rw [dottedTail]
        refine (hscans.skipAtmosphere bound).bind fun o => ?_
        cases o with
        | none => exact .throw _
        | some c => exact hscans.ite (.throw _) (hdatum.bind fun d => hscans.closeDotted bound d)

theorem local_topLevel (bound : Nat) : Local (topLevel bound) := by
  unfold topLevel
  have hscans := compositional_local
  refine (hscans.skipAtmosphere bound).bind fun o => ?_
  cases o with
  | none => exact .pure _
  | some c =>
      have hdatum := (local_data bound).1.bind fun d => .pure (some d)
      exact hscans.ite (.bind local_next fun _ => .throw _) hdatum

/-- A call of the reader takes a line only when the line before is used up. -/
theorem readDatum_paced (s : CharStream) : s.Paced (readDatum s) := by
  rw [readDatum_apply]
  exact (local_topLevel _).paced s

theorem readDatum_suffix (s : CharStream) :
    (readDatum s).2.unread.toList <:+ s.unread.toList :=
  (readDatum_paced s).suffix

theorem readDatum_coherent {s : CharStream} (h : s.Coherent) : (readDatum s).2.Coherent :=
  (readDatum_paced s).coherent h

theorem boundFor_le_followedBy (s : CharStream) (more : List UInt8) :
    boundFor s ≤ boundFor (s.followedBy more) := by
  simp only [boundFor, CharStream.size, followedBy, Counted.append]
  omega

/-- A call of the reader that keeps away from the end of the bytes comes to the same with any other
bytes behind them, for no bound beyond its own makes a difference. -/
theorem readDatum_followedBy {s : CharStream} (h : KeepsAway s (readDatum s).2)
    (more : List UInt8) :
    readDatum (s.followedBy more) = ((readDatum s).1, (readDatum s).2.followedBy more) := by
  have hcall := topLevel_eq_readDatum (boundFor_le_followedBy s more)
  rw [← hcall] at h ⊢
  rw [readDatum_apply]
  exact (local_topLevel _).followed s more h

/-- A call of the reader comes to the same when bytes that it leaves do not follow. -/
theorem readDatum_curtailed {s : CharStream} {more : List UInt8}
    (h : more <:+ (readDatum (s.followedBy more)).2.unread.toList) :
    readDatum (s.followedBy more) = ((readDatum s).1, (readDatum s).2.followedBy more) := by
  rw [← topLevel_eq_readDatum (boundFor_le_followedBy s more)]
  rw [readDatum_apply] at h ⊢
  exact (local_topLevel _).curtailed s more h

end Reader

end TinyLisp
