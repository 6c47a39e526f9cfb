import TinyLisp.CharStream

/-!
Streams of valid text.  Lines are split between bytes, but only a newline has the newline byte in
its encoding, so lines are whole characters.  Main statements: `reads_peek` and `reads_next`, a
stream that spells a text hands out its characters one by one.
-/

namespace TinyLisp

open CharStream

/-! ### Bytes of characters -/

theorem encode_ofList (cs : List Char) :
    encode (String.ofList cs) = cs.flatMap String.utf8EncodeChar := by
  simp [encode, List.utf8Encode]

theorem ofNat_ne_newlineByte {n : Nat} (hlow : 128 ≤ n) (hhigh : n < 256) :
    newlineByte ≠ UInt8.ofNat n := by
  intro h
  have hnat := congrArg UInt8.toNat h
  rw [UInt8.toNat_ofNat_of_lt' hhigh] at hnat
  change 10 = n at hnat
  omega

/-- The newline byte encodes the newline and is no part of another character. -/
theorem newlineByte_mem_iff {c : Char} : newlineByte ∈ String.utf8EncodeChar c ↔ c = '\n' := by
  constructor
  · intro h
    unfold String.utf8EncodeChar at h
    simp only at h
    split at h
    · next hascii =>
        have hlt : c.val.toNat < UInt8.size := Nat.lt_of_le_of_lt hascii (by decide)
        have hnat := congrArg UInt8.toNat (List.mem_singleton.mp h)
        rw [UInt8.toNat_ofNat_of_lt' hlt] at hnat
        exact Char.ext (UInt32.toNat.inj hnat.symm)
    · -- A character beyond ASCII has only bytes beyond ASCII.
      exfalso
      split at h
      · simp only [List.mem_cons, List.not_mem_nil, or_false] at h
        rcases h with h | h
        all_goals exact ofNat_ne_newlineByte (by omega) (by omega) h
      · split at h
        · simp only [List.mem_cons, List.not_mem_nil, or_false] at h
          rcases h with h | h | h
          all_goals exact ofNat_ne_newlineByte (by omega) (by omega) h
        · simp only [List.mem_cons, List.not_mem_nil, or_false] at h
          rcases h with h | h | h | h
          all_goals exact ofNat_ne_newlineByte (by omega) (by omega) h
  · rintro rfl
    decide

theorem splitLine_append_of_not_mem {bytes : List UInt8} (h : newlineByte ∉ bytes)
    (rest : List UInt8) :
    splitLine (bytes ++ rest) = (bytes ++ (splitLine rest).1, (splitLine rest).2) := by
  have hall : ∀ b ∈ bytes, (b != newlineByte) = true := by
    intro b hb
    simp only [bne_iff_ne, ne_eq]
    rintro rfl
    exact h hb
  simp only [splitLine, List.takeWhile_append_of_pos hall, List.dropWhile_append_of_pos hall,
    List.append_assoc]

/-- The first line of an encoded text is itself an encoded text, and so is what follows. -/
theorem splitLine_encoded (cs : List Char) :
    ∃ line rest, cs = line ++ rest ∧
      splitLine (cs.flatMap String.utf8EncodeChar) =
        (line.flatMap String.utf8EncodeChar, rest.flatMap String.utf8EncodeChar) := by
  induction cs with
  | nil => exact ⟨[], [], rfl, rfl⟩
  | cons c cs ih =>
      by_cases hc : c = '\n'
      · subst hc
        exact ⟨['\n'], cs, rfl, rfl⟩
      · obtain ⟨line, rest, hsplit, hbytes⟩ := ih
        refine ⟨c :: line, rest, by rw [hsplit, List.cons_append], ?_⟩
        have hnot : newlineByte ∉ String.utf8EncodeChar c := fun h => hc (newlineByte_mem_iff.mp h)
        rw [List.flatMap_cons, splitLine_append_of_not_mem hnot, hbytes, List.flatMap_cons]

/-- Every character takes at least one byte. -/
theorem length_le_encoded (cs : List Char) :
    cs.length ≤ (cs.flatMap String.utf8EncodeChar).length := by
  induction cs with
  | nil => exact Nat.le_refl _
  | cons c cs ih =>
      have hpos : 0 < (String.utf8EncodeChar c).length :=
        List.length_pos_iff.mpr String.utf8EncodeChar_ne_nil
      rw [List.flatMap_cons, List.length_append, List.length_cons]
      omega

theorem decode?_encoded (cs : List Char) : decode? (cs.flatMap String.utf8EncodeChar) = some cs := by
  rw [← encode_ofList, decode?_encode, String.toList_ofList]

/-! ### Scanning -/

namespace Scan

variable {α β : Type}

@[simp] theorem pure_apply (a : α) (s : CharStream) : (pure a : Scan α) s = (.ok a, s) := rfl

@[simp] theorem throw_apply (e : Error) (s : CharStream) :
    (throw e : Scan α) s = (.error e, s) := rfl

@[simp] theorem get_apply (s : CharStream) : (get : Scan CharStream) s = (.ok s, s) := rfl

@[simp] theorem bind_apply (m : Scan α) (f : α → Scan β) (s : CharStream) :
    (m >>= f) s =
      match m s with
      | (.error e, t) => (.error e, t)
      | (.ok a, t) => f a t := by
  change ExceptT.bindCont f (m s).1 (m s).2 = _
  cases m s with
  | mk result t => cases result <;> rfl

/-- A sequence succeeds by way of an answer of its first part. -/
theorem exists_of_bind_ok {m : Scan α} {f : α → Scan β} {s t : CharStream} {b : β}
    (h : (m >>= f) s = (.ok b, t)) : ∃ a u, m s = (.ok a, u) ∧ f a u = (.ok b, t) := by
  rw [bind_apply] at h
  revert h
  rcases m s with ⟨_ | a, u⟩ <;> intro h
  · cases h
  · exact ⟨a, u, rfl, h⟩

end Scan

namespace CharStream

/-- The characters still to come, all of them valid text. -/
def Spells (s : CharStream) (cs : List Char) : Prop :=
  ∃ later, cs = s.line.toList ++ later ∧
    s.unread.toList = later.flatMap String.utf8EncodeChar ∧ (s.exhausted = true → later = [])

theorem spells_ofText (text : String) : (ofText text).Spells text.toList := by
  refine ⟨text.toList, rfl, ?_, nofun⟩
  rw [← encode_ofList, String.ofList_toList]
  rfl

theorem Spells.length_le {s : CharStream} {cs : List Char} (h : s.Spells cs) :
    cs.length ≤ s.size := by
  obtain ⟨later, rfl, hunread, _⟩ := h
  have hlater := length_le_encoded later
  rw [← hunread] at hlater
  rw [size, s.line.length_eq, s.unread.length_eq, List.length_append]
  omega

theorem fill_apply (s : CharStream) :
    fill s =
      if s.line.toList.isEmpty && !s.exhausted then
        if s.unread.toList.isEmpty then (.ok (), { s with exhausted := true })
        else
          match decode? (splitLine s.unread.toList).1 with
          | some line =>
              (.ok (), { s with line := .ofList line, unread := (takeLine s.unread).2 })
          | none => (.error (.io .invalidText), { s with unread := (takeLine s.unread).2 })
      else (.ok (), s) := by
  unfold fill
  rw [Scan.bind_apply, Scan.get_apply]
  simp only
  split
  · split
    · rfl
    · simp only [takeLine]
      cases decode? (splitLine s.unread.toList).1 <;> rfl
  · rfl

/-- Filling the line changes nothing that is still to come, and leaves it empty only at the end. -/
theorem Spells.fill {s : CharStream} {cs : List Char} (h : s.Spells cs) :
    ∃ t, CharStream.fill s = (.ok (), t) ∧ t.Spells cs ∧ t.line.toList.head? = cs.head? := by
  obtain ⟨later, rfl, hunread, hexhausted⟩ := h
  rw [fill_apply]
  cases hline : s.line.toList with
  | cons c line => exact ⟨s, by simp, ⟨later, by rw [hline], hunread, hexhausted⟩, by simp [hline]⟩
  | nil =>
      cases hend : s.exhausted with
      | true =>
          obtain rfl := hexhausted hend
          exact ⟨s, by simp, ⟨[], by simp [hline], hunread, fun _ => rfl⟩, by simp [hline]⟩
      | false =>
          obtain ⟨line, rest, hlater, hsplit⟩ := splitLine_encoded later
          rw [← hunread] at hsplit
          cases hempty : s.unread.toList.isEmpty with
          | true =>
              have hnone : later = [] := by
                have hle := length_le_encoded later
                rw [← hunread, List.isEmpty_iff.mp hempty] at hle
                exact List.eq_nil_of_length_eq_zero (Nat.le_zero.mp hle)
              refine ⟨{ s with exhausted := true }, by simp, ⟨later, ?_, hunread, fun _ => hnone⟩, ?_⟩
              · rw [hline]
              · simp [hline, hnone]
          | false =>
              have hnonempty : line ≠ [] := by
                rintro rfl
                have hnil := congrArg Prod.fst hsplit
                rw [List.flatMap_nil, splitLine_fst_eq_nil_iff] at hnil
                simp [hnil] at hempty
              refine ⟨{ s with line := .ofList line, unread := (takeLine s.unread).2 }, ?_,
                ⟨rest, hlater, congrArg Prod.snd hsplit, by simp [hend]⟩, ?_⟩
              · simp [hsplit, decode?_encoded, hend]
              · obtain ⟨c, line, rfl⟩ := List.exists_cons_of_ne_nil hnonempty
                simp [hlater]

end CharStream

/-- On every stream that spells `cs`, the scan answers `a` and leaves `rest` to come. -/
def Scan.Reads {α : Type} (m : Scan α) (cs : List Char) (a : α) (rest : List Char) : Prop :=
  ∀ s, s.Spells cs → ∃ t, m s = (.ok a, t) ∧ t.Spells rest

namespace Scan.Reads

variable {α β : Type} {cs middle rest : List Char}

theorem pure (a : α) (cs : List Char) : Reads (Pure.pure a) cs a cs :=
  fun s h => ⟨s, rfl, h⟩

theorem bind {m : Scan α} {f : α → Scan β} {a : α} {b : β} (hm : Reads m cs a middle)
    (hf : Reads (f a) middle b rest) : Reads (m >>= f) cs b rest := by
  intro s hs
  obtain ⟨t, hfirst, ht⟩ := hm s hs
  obtain ⟨u, hsecond, hu⟩ := hf t ht
  refine ⟨u, ?_, hu⟩
  rw [bind_apply, hfirst]
  exact hsecond

end Scan.Reads

namespace CharStream

open Scan

theorem Spells.peek {s : CharStream} {cs : List Char} (h : s.Spells cs) :
    ∃ t, CharStream.peek s = (.ok cs.head?, t) ∧ t.Spells cs ∧ t.line.toList.head? = cs.head? := by
  obtain ⟨t, hfill, ht, hhead⟩ := h.fill
  refine ⟨t, ?_, ht, hhead⟩
  rw [CharStream.peek, bind_apply, hfill]
  simp [hhead]

/-- Looking at the next character leaves it to come. -/
theorem reads_peek (cs : List Char) : Reads peek cs cs.head? cs := by
  intro s hs
  obtain ⟨t, hpeek, ht, _⟩ := hs.peek
  exact ⟨t, hpeek, ht⟩

/-- Taking the next character leaves the others to come. -/
theorem reads_next (cs : List Char) : Reads next cs cs.head? cs.tail := by
  intro s hs
  obtain ⟨t, hpeek, ht, hhead⟩ := hs.peek
  refine ⟨{ t with line := t.line.tail }, ?_, ?_⟩
  · rw [next, bind_apply, hpeek]
    rfl
  · obtain ⟨later, rfl, hunread, hexhausted⟩ := ht
    cases hline : t.line.toList with
    | nil =>
        have hnone : later = [] := by
          simpa [hline] using hhead.symm
        exact ⟨[], by simp [hline, hnone], by simpa [hnone] using hunread, fun _ => rfl⟩
    | cons c line => exact ⟨later, by simp [hline], hunread, hexhausted⟩

end CharStream

end TinyLisp
