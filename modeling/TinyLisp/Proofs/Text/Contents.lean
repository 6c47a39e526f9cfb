import TinyLisp.Proofs.Text.Recognition

/-!
What a text contains: data one after another, up to its end or to something that cannot be read.  A
newline behind a text ends whatever the text ended in.  Main statement: `Contains.newline`, when all
of a text can be read, another one below it adds exactly its own contents.
-/

namespace TinyLisp

open CharStream Reader Scan Text

/-- Read one after another, the data of a text are `ds`; then it ends, or there is a failure. -/
inductive Text.Contains : List Char → List Datum → Option Error → Prop where
  | finished {cs} (hgap : Gap cs []) : Contains cs [] none
  | unreadable {cs rest e} (h : Answers readDatum cs (.error e) rest) : Contains cs [] (some e)
  | datum {cs start rest d ds ending} (hgap : Gap cs start)
      (hd : Denotes (.datum d) start rest) (hmore : Contains rest ds ending) :
      Contains cs (d :: ds) ending

/-- A scan has one outcome on a text. -/
theorem Scan.Answers.unique {α : Type} {m : Scan α} {cs rest rest' : List Char}
    {r r' : Except Error α} (h : Answers m cs r rest) (h' : Answers m cs r' rest') :
    r = r' ∧ rest = rest' := by
  have hspells := spells_ofText (String.ofList cs)
  rw [String.toList_ofList] at hspells
  obtain ⟨t, ht, hrest⟩ := h _ hspells
  obtain ⟨t', ht', hrest'⟩ := h' _ hspells
  rw [ht, Prod.mk.injEq] at ht'
  obtain ⟨hr, rfl⟩ := ht'
  exact ⟨hr, hrest.unique hrest'⟩

namespace Text

variable {cs k : List Char} {ds ds' : List Datum} {ending ending' : Option Error}

/-- Every text has contents, for every datum takes some of it away. -/
theorem exists_contains (cs : List Char) : ∃ ds ending, Contains cs ds ending := by
  induction hlength : cs.length using Nat.strongRecOn generalizing cs with
  | ind n ih =>
      obtain ⟨start, hgap, hbare⟩ := exists_gap cs
      rcases topLevel_cases hbare with rfl | ⟨d, rest, hd⟩ | ⟨cause, rest, hrun⟩
      · exact ⟨[], none, .finished hgap⟩
      · have hstart := hgap.length_le
        have hrest := hd.length_lt
        obtain ⟨ds, ending, hmore⟩ := ih rest.length (by omega) rest rfl
        exact ⟨d :: ds, ending, .datum hgap hd hmore⟩
      · exact ⟨[], _, .unreadable (answers_readDatum (hrun cs hgap))⟩

theorem Contains.length_le (h : Contains cs ds ending) : ds.length ≤ cs.length := by
  induction h with
  | finished => exact Nat.zero_le _
  | unreadable => exact Nat.zero_le _
  | datum hgap hd _ ih =>
      have hstart := hgap.length_le
      have hrest := hd.length_lt
      rw [List.length_cons]
      omega

/-- What cannot be read cannot be read below a text without data either. -/
theorem answers_readDatum_newline {e : Error} {rest : List Char} (hgap : Gap cs [])
    (h : Answers readDatum k (.error e) rest) :
    Answers readDatum (cs ++ '\n' :: k) (.error e) rest := by
  obtain ⟨start, hstart, hbare⟩ := exists_gap k
  rcases topLevel_cases hbare with rfl | ⟨d, rest', hd⟩ | ⟨cause, rest', hrun⟩
  · have hnone := h.unique (reads_readDatum_none hstart)
    cases hnone.1
  · have hsome := h.unique (reads_readDatum_some hstart hd)
    cases hsome.1
  · obtain ⟨hcause, rfl⟩ := h.unique (answers_readDatum (hrun k hstart))
    rw [hcause]
    exact answers_readDatum (hrun _ ((hgap.newline k).trans hstart))

/-- A datum in a text is still there when more text follows below. -/
theorem Contains.datum_newline {start rest : List Char} {d : Datum} (hgap : Gap cs start)
    (hd : Denotes (.datum d) start rest) (hmore : Contains (rest ++ '\n' :: k) ds ending) :
    Contains (cs ++ '\n' :: k) (d :: ds) ending := by
  have hnonempty : start ≠ [] := List.length_pos_iff.mp (Nat.zero_lt_of_lt hd.length_lt)
  exact .datum (hgap.append hnonempty ('\n' :: k)) (hd.newline k) hmore

/-- A text below one that can be read adds its own contents. -/
theorem Contains.newline (h : Contains cs ds none) (hk : Contains k ds' ending') :
    Contains (cs ++ '\n' :: k) (ds ++ ds') ending' := by
  generalize hending : (none : Option Error) = ending at h
  induction h with
  | finished hgap =>
      rw [List.nil_append]
      cases hk with
      | finished hgap' => exact .finished ((hgap.newline k).trans hgap')
      | unreadable hfails => exact .unreadable (answers_readDatum_newline hgap hfails)
      | datum hgap' hd hmore => exact .datum ((hgap.newline k).trans hgap') hd hmore
  | unreadable => cases hending
  | datum hgap hd _ ih => exact datum_newline hgap hd (ih hending)

/-- A text below any other leaves the data of that one as they are. -/
theorem Contains.exists_newline (h : Contains cs ds ending) (k : List Char) :
    ∃ ds' ending', Contains (cs ++ '\n' :: k) (ds ++ ds') ending' := by
  induction h with
  | finished => exact exists_contains _
  | unreadable => exact exists_contains _
  | datum hgap hd _ ih =>
      obtain ⟨ds', ending', hmore⟩ := ih
      exact ⟨ds', ending', datum_newline hgap hd hmore⟩

/-- What a stream reads next is what its text contains next. -/
theorem Contains.readAllFrom {s : CharStream} {bound : Nat} (h : Contains cs ds ending)
    (hs : s.Spells cs) (hbound : ds.length < bound) (read : List Datum) :
    (Reader.readAllFrom bound read s).1 = ending.elim (.ok (read.reverse ++ ds)) .error := by
  induction h generalizing s read bound with
  | finished hgap =>
      obtain ⟨bound, rfl⟩ : ∃ b, bound = b + 1 := ⟨bound - 1, by omega⟩
      obtain ⟨t, ht, _⟩ := reads_readDatum_none hgap s hs
      rw [Reader.readAllFrom, bind_apply, ht]
      simp
  | unreadable hfails =>
      obtain ⟨bound, rfl⟩ : ∃ b, bound = b + 1 := ⟨bound - 1, by omega⟩
      obtain ⟨t, ht, _⟩ := hfails s hs
      rw [Reader.readAllFrom, bind_apply, ht]
      rfl
  | @datum _ _ _ d ds ending hgap hd _ ih =>
      obtain ⟨bound, rfl⟩ : ∃ b, bound = b + 1 := ⟨bound - 1, by omega⟩
      obtain ⟨t, ht, hrest⟩ := reads_readDatum_some hgap hd s hs
      rw [Reader.readAllFrom, bind_apply, ht]
      have hmore := ih hrest (Nat.lt_of_succ_lt_succ hbound) (d :: read)
      rw [List.reverse_cons, List.append_assoc, List.singleton_append] at hmore
      exact hmore

/-- Reading all data of a text comes to its contents. -/
theorem Contains.readAll {text : String} (h : Contains text.toList ds ending) :
    Reader.readAll text = ending.elim (.ok ds) .error := by
  have hspells := spells_ofText text
  have hbound : ds.length < (CharStream.ofText text).size + 1 :=
    Nat.lt_succ_of_le (Nat.le_trans h.length_le hspells.length_le)
  exact h.readAllFrom hspells hbound []

/-- The contents of a text are what reading all of it comes to. -/
theorem Contains.of_readAll {text : String} (h : (Reader.readAll text).toOption = some ds) :
    Contains text.toList ds none := by
  obtain ⟨ds', ending, hcontains⟩ := exists_contains text.toList
  rw [hcontains.readAll] at h
  cases ending with
  | some e => cases h
  | none =>
      cases h
      exact hcontains

/-- What is read from a text is its first datum. -/
theorem Contains.of_reads {rest : List Char} {d : Datum} (h : Reads readDatum cs (some d) rest)
    (hmore : Contains rest ds ending) : Contains cs (d :: ds) ending := by
  obtain ⟨start, hgap, hbare⟩ := exists_gap cs
  rcases topLevel_cases hbare with rfl | ⟨d', rest', hd⟩ | ⟨cause, rest', hrun⟩
  · have hnone := Answers.unique (reads_readDatum_none hgap) h
    cases hnone.1
  · obtain ⟨heq, rfl⟩ := Answers.unique (reads_readDatum_some hgap hd) h
    cases heq
    exact .datum hgap hd hmore
  · have hfails := Answers.unique (answers_readDatum (hrun cs hgap)) h
    cases hfails.1

/-- A text below one that can be read adds what reading it comes to. -/
theorem readAll_newline {a : String} {xs : List Datum} (h : Reader.readAll a = .ok xs)
    (b : String) : Reader.readAll (a ++ "\n" ++ b) = (Reader.readAll b).map (xs ++ ·) := by
  obtain ⟨ds, ending, ha⟩ := exists_contains a.toList
  obtain ⟨ds', ending', hb⟩ := exists_contains b.toList
  rw [ha.readAll] at h
  cases ending with
  | some e => cases h
  | none =>
      obtain rfl : ds = xs := Except.ok.inj h
      have hboth : Contains (a ++ "\n" ++ b).toList (ds ++ ds') ending' := by
        simpa using ha.newline hb
      rw [hboth.readAll, hb.readAll]
      cases ending' <;> rfl

end Text

end TinyLisp
