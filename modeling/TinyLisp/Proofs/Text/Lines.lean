import TinyLisp.Proofs.Ports.Buffering
import TinyLisp.Proofs.Text.Recognition

/-!
Values written one below the other.  The newline behind a value ends whatever the value ended in,
and is a blank in front of the next one.  Main statements: `reads_line` and `reads_end`, from an
input that goes on with the lines of some values the first of them is read, and the end when there
is none.
-/

namespace TinyLisp

open CharStream Reader Scan Text

/-- The written forms of values, each with a newline behind it. -/
def Value.lines (vs : List Value) : String :=
  String.join (vs.map fun v => v.text ++ "\n")

@[simp] theorem Value.lines_nil : lines [] = "" := rfl

@[simp] theorem Value.lines_cons (v : Value) (vs : List Value) :
    lines (v :: vs) = v.text ++ "\n" ++ lines vs := by
  simp [lines]

theorem Value.toList_lines_cons (v : Value) (vs : List Value) :
    (lines (v :: vs)).toList = v.writeAt .alone ('\n' :: (lines vs).toList) := by
  rw [lines_cons, String.toList_append, String.toList_append, List.append_assoc, ← write_eq]
  rfl

/-- Behind a gap, the written form of a readable value is read as its contents. -/
theorem Reader.reads_readDatum_written {v : Value} {d : Datum} (hd : v.datum? = some d)
    (h : v.Readable) {cs k : List Char} (hgap : Gap cs (v.writeAt .alone k)) (hk : Stops k) :
    Reads readDatum cs (some d) k := by
  have hlength := hgap.length_le
  obtain ⟨c, ⟨hhead, hblank, hcomment⟩, hc⟩ := Value.begins_writeAt h k
  have hbare : Bare (v.writeAt .alone k) := by
    intro c' hc'
    rw [hhead] at hc'
    cases hc'
    exact ⟨hblank, hcomment⟩
  refine answers_readDatum fun bound hbound => ?_
  have hskip := reads_skipAtmosphere_gap hgap hbare (show cs.length + 1 < bound by omega)
  rw [hhead] at hskip
  refine Answers.bind hskip ?_
  simp only [if_neg hc]
  exact ((Value.readsAs hd h).alone bound k hk (by omega)).bind (.pure (some d) k)

namespace Input

/-- The characters that an input has still to give: those of its stream, in memory or with a part of
them still in its file. -/
inductive Offers (fs : FileSystem) (cs : List Char) : Input → Prop where
  | memory {stream} (h : stream.Spells cs) : Offers fs cs ⟨stream, .memory⟩
  | file {stream path i} (h : stream.Spells cs) (hfile : Buffers path (fs.content path) stream i) :
      Offers fs cs i

variable {fs : FileSystem} {cs rest : List Char} {i : Input}

theorem offers_ofText (fs : FileSystem) (text : String) :
    (ofText text).Offers fs text.toList :=
  .memory (spells_ofText text)

theorem offers_ofNode {path : Path} {text : String} (h : fs.content path = encode text) :
    (ofNode path (.file (encode text))).Offers fs text.toList := by
  apply Offers.file (spells_ofText text)
  rw [h]
  exact buffers_ofNode path (encode text)

/-- An input answers what the reader makes of the characters, and offers those that are left. -/
theorem Offers.readDatum (h : i.Offers fs cs) {answer : Option Datum}
    (hreads : Reads Reader.readDatum cs answer rest) :
    (i.readDatum fs).1 = .ok answer ∧ (i.readDatum fs).2.Offers fs rest := by
  cases h with
  | @memory stream h =>
      obtain ⟨t, hrun, ht⟩ := hreads stream h
      rw [readDatum_memory]
      change ((Reader.readDatum stream).1 = _) ∧ Offers fs rest ⟨(Reader.readDatum stream).2, _⟩
      rw [hrun]
      exact ⟨rfl, .memory ht⟩
  | @file stream path i h hfile =>
      obtain ⟨t, hrun, ht⟩ := hreads stream h
      obtain ⟨hanswer, hnext⟩ := hfile.readDatum rfl
      rw [hrun] at hanswer hnext
      exact ⟨hanswer, .file ht hnext⟩

variable {v : Value} {vs : List Value} {d : Datum}

/-- The next datum of an input that goes on with the lines of values is that of the first. -/
theorem Offers.reads_line (h : i.Offers fs cs) (hgap : Gap cs (Value.lines (v :: vs)).toList)
    (hv : v.Readable) (hd : v.datum? = some d) :
    (i.readDatum fs).1 = .ok (some d) ∧
      ∃ rest, (i.readDatum fs).2.Offers fs rest ∧ Gap rest (Value.lines vs).toList := by
  rw [Value.toList_lines_cons] at hgap
  obtain ⟨hanswer, hnext⟩ :=
    h.readDatum (reads_readDatum_written hd hv hgap (.cons rfl _))
  exact ⟨hanswer, _, hnext, .blank rfl (.none _)⟩

/-- Behind the last line there is nothing left to read, and that does not change. -/
theorem Offers.reads_end (h : i.Offers fs cs) (hgap : Gap cs []) :
    (i.readDatum fs).1 = .ok none ∧ (i.readDatum fs).2.Offers fs [] :=
  h.readDatum (reads_readDatum_none hgap)

end Input

end TinyLisp
