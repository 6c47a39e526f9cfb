import TinyLisp.Port
import TinyLisp.Proofs.Text.Local

/-!
Files are read in blocks.  As long as the file stays as it is, an input over it answers what a
stream over all of its content answers, whatever was fetched when.  Main statement:
`Buffers.readDatum`.
-/

namespace TinyLisp

open CharStream

/-- What is fetched is enough, if there is enough. -/
theorem le_fetched (needed available : Nat) : min needed available ≤ fetched needed available := by
  have hblocks : needed ≤ (needed + blockSize - 1) / blockSize * blockSize := by
    simp only [blockSize]
    omega
  rw [fetched]
  omega

/-- Of bytes in a buffer and those behind it, some end of which is left: what is left of the buffer
and of a block that is fetched to it, with what has not been fetched behind it. -/
theorem drop_append_take {buffered pending rest : List UInt8} {taken block : Nat}
    (hrest : rest <:+ buffered ++ pending)
    (htaken : taken = (buffered ++ pending).length - rest.length)
    (hblock : min (taken - buffered.length) pending.length ≤ block) :
    (buffered ++ pending.take block).drop taken ++ pending.drop block = rest := by
  obtain ⟨front, hfront⟩ := hrest
  have hsum := congrArg List.length hfront
  simp only [List.length_append] at hsum htaken
  have hfetched : taken ≤ (buffered ++ pending.take block).length := by
    rw [List.length_append, List.length_take]
    omega
  have hall : buffered ++ pending.take block ++ pending.drop block = buffered ++ pending := by
    rw [List.append_assoc, List.take_append_drop]
  rw [← List.drop_append_of_le_length hfetched, hall, ← hfront]
  exact List.drop_left' (by omega)

namespace Input

/-- A run that sufficed kept away from the end. -/
theorem keepsAway_of_sufficed {before after : CharStream} (h : sufficed before after = true) :
    KeepsAway before after := by
  simp only [sufficed, Bool.and_eq_true, Bool.not_eq_true', beq_iff_eq] at h
  obtain ⟨hexhausted, hempty⟩ := h
  refine ⟨hexhausted, fun hnil => ?_⟩
  rw [hnil] at hempty
  rw [List.isEmpty_iff.mp hempty.symm]
  exact endsLine_nil

/-- The inputs over a file that are where a stream over a content is: what the stream has not read
yet is what is left of the blocks fetched, with what has not been fetched behind it. -/
inductive Buffers (path : Path) (content : List UInt8) : CharStream → Input → Prop where
  | mk (stream offset) :
      Buffers path content (stream.followedBy (content.drop offset)) ⟨stream, .file path offset⟩

variable {path : Path} {content : List UInt8} {fs : FileSystem} {s : CharStream} {i : Input}

theorem Buffers.of_kept {kept : List UInt8} {offset : Nat}
    (h : kept ++ content.drop offset = s.unread.toList) :
    Buffers path content s ⟨{ s with unread := .ofList kept }, .file path offset⟩ := by
  have hbuffers : Buffers path content _ ⟨_, .file path offset⟩ :=
    .mk { s with unread := .ofList kept } offset
  rw [followedBy_eq h] at hbuffers
  exact hbuffers

theorem buffers_ofNode (path : Path) (content : List UInt8) :
    Buffers path content (.ofBytes content) (.ofNode path (.file content)) :=
  .of_kept rfl

theorem Buffers.skipLine (h : Buffers path content s i) :
    Buffers path content s.skipLine i.skipLine := by
  obtain ⟨stream, offset⟩ := h
  exact .mk stream.skipLine offset

/-- Where what was fetched suffices, nothing more is looked at. -/
theorem readDatum_of_sufficed {stream : CharStream} {offset : Nat}
    (h : sufficed stream (Reader.readDatum stream).2 = true) :
    Input.readDatum fs ⟨stream, .file path offset⟩ =
      ((Reader.readDatum stream).1, ⟨(Reader.readDatum stream).2, .file path offset⟩) :=
  if_pos h

/-- Where it does not, all of the file is offered; of what is left, the rest of the last block is
kept, and what is behind that block stays in the file. -/
theorem readDatum_of_not_sufficed {stream whole : CharStream} {offset : Nat}
    (h : ¬ sufficed stream (Reader.readDatum stream).2 = true)
    (hwhole : whole = stream.followedBy ((fs.content path).drop offset)) :
    ∃ block kept,
      Input.readDatum fs ⟨stream, .file path offset⟩ =
        ((Reader.readDatum whole).1,
          ⟨{ (Reader.readDatum whole).2 with unread := .ofList kept },
            .file path (offset + block)⟩) ∧
      kept ++ (fs.content path).drop (offset + block) =
        (Reader.readDatum whole).2.unread.toList := by
  let pending := (fs.content path).drop offset
  let taken := whole.unread.length - (Reader.readDatum whole).2.unread.length
  let block :=
    fetched (taken - stream.unread.length) (whole.unread.length - stream.unread.length)
  have hbytes : whole.unread.toList = stream.unread.toList ++ pending := by
    rw [hwhole]
    rfl
  have hpending : whole.unread.length - stream.unread.length = pending.length := by
    rw [whole.unread.length_eq, stream.unread.length_eq, hbytes, List.length_append]
    omega
  have hblock : min (taken - stream.unread.toList.length) pending.length ≤ block := by
    rw [← stream.unread.length_eq, ← hpending]
    exact le_fetched _ _
  have htaken : taken = (stream.unread.toList ++ pending).length -
      (Reader.readDatum whole).2.unread.toList.length := by
    rw [← hbytes, ← Counted.length_eq, ← Counted.length_eq]
  have hsuffix := Reader.readDatum_suffix whole
  rw [hbytes] at hsuffix
  refine ⟨block, (stream.unread.toList ++ pending.take block).drop taken, ?_, ?_⟩
  · subst hwhole
    exact if_neg h
  · rw [← List.drop_drop]
    exact drop_append_take hsuffix htaken hblock

/-- Reading from a file is reading from its content, as long as that is in the file. -/
theorem Buffers.readDatum (h : Buffers path content s i) (hcontent : fs.content path = content) :
    (i.readDatum fs).1 = (Reader.readDatum s).1 ∧
      Buffers path content (Reader.readDatum s).2 (i.readDatum fs).2 := by
  subst hcontent
  obtain ⟨stream, offset⟩ := h
  by_cases hsufficed : sufficed stream (Reader.readDatum stream).2 = true
  · rw [readDatum_of_sufficed hsufficed,
      Reader.readDatum_followedBy (keepsAway_of_sufficed hsufficed)]
    exact ⟨rfl, .mk _ offset⟩
  · obtain ⟨block, kept, hread, hkept⟩ := readDatum_of_not_sufficed hsufficed rfl
    rw [hread]
    exact ⟨rfl, .of_kept hkept⟩

end Input

end TinyLisp
