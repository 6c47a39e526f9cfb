import TinyLisp.FileSystem
import TinyLisp.Reader

/-!
Ports: a readable side, a writable side, and what has been written.

Bytes of a file are fetched in blocks, and only when a line needs them, so an input sees what is
written to its file after the last block it fetched.
-/

namespace TinyLisp

/-- Where the bytes of an input come from. -/
inductive Source where
  | memory
  | file (path : Path) (offset : Nat)
  | directory
  deriving DecidableEq, Repr

/-- Characters with their source.  What the stream has not read yet is all there is for memory, and
what is left of the fetched blocks for a file. -/
structure Input where
  stream : CharStream
  source : Source
  deriving DecidableEq, Repr

/-- Where the text written to a port goes, beside being remembered. -/
inductive Sink where
  | memory
  | console
  | file (path : Path) (offset : Nat)
  deriving DecidableEq, Repr

/-- A port; closing it takes both sides away and keeps what was written. -/
structure Port where
  input : Option Input
  output : Option Sink
  written : String
  deriving Repr

/-- The bytes fetched from a file at a time. -/
def blockSize : Nat := 8192

/-- The bytes fetched to have `needed` of them: whole blocks, as far as there are bytes. -/
def fetched (needed available : Nat) : Nat :=
  min ((needed + blockSize - 1) / blockSize * blockSize) available

namespace Input

/-- An input over bytes in memory. -/
def ofBytes (bytes : List UInt8) : Input :=
  ⟨.ofBytes bytes, .memory⟩

/-- An input over a text in memory. -/
def ofText (text : String) : Input :=
  ⟨.ofText text, .memory⟩

/-- An input at the start of a node. -/
def ofNode (path : Path) : Node → Input
  | .directory => ⟨.ofBytes [], .directory⟩
  | .file _ => ⟨.ofBytes [], .file path 0⟩

/-- Whether a run that led from one stream to another kept away from the end of its bytes, so that
more of them would have made no difference. -/
def sufficed (before after : CharStream) : Bool :=
  !after.exhausted && after.unread.toList.isEmpty == before.unread.toList.isEmpty

/-- Runs an action on the characters of an input.  A file is offered whole from its offset on, unless
what is fetched suffices, and keeps of what was not taken only the rest of the last block fetched; a
directory has no characters to give. -/
def scan (fs : FileSystem) (action : Scan α) (i : Input) : Except Error α × Input :=
  match i.source with
  | .memory =>
      let (result, stream) := action.run i.stream
      (result, { i with stream := stream })
  | .directory => (.error (.io .isDirectory), i)
  | .file path offset =>
      let (result, stream) := action.run i.stream
      if sufficed i.stream stream then (result, { i with stream := stream })
      else
        let buffered := i.stream.unread
        let pending := (fs.content path).drop offset
        let available := buffered.append pending
        let (result, stream) := action.run { i.stream with unread := available }
        let taken := available.length - stream.unread.length
        let block := fetched (taken - buffered.length) (available.length - buffered.length)
        let kept := (buffered.toList ++ pending.take block).drop taken
        (result,
          { stream := { stream with unread := .ofList kept }
            source := .file path (offset + block) })

/-- The next datum of an input; `none` at its end. -/
def readDatum (fs : FileSystem) (i : Input) : Except Error (Option Datum) × Input :=
  i.scan fs Reader.readDatum

/-- Drops what is left of the line in use. -/
def skipLine (i : Input) : Input :=
  { i with stream := i.stream.skipLine }

end Input

namespace Port

def ofInput (i : Input) : Port :=
  ⟨some i, none, ""⟩

def ofSink (s : Sink) : Port :=
  ⟨none, some s, ""⟩

/-- A port is open as long as one side is. -/
def isOpen (p : Port) : Bool :=
  p.input.isSome || p.output.isSome

/-- Takes both sides away. -/
def close (p : Port) : Port :=
  { p with input := none, output := none }

/-- A truth value as it is shown to people. -/
def truthText (b : Bool) : String :=
  if b then "true" else "false"

/-- A port as it is shown to people. -/
def describe (p : Port) : String :=
  "<port readable=" ++ truthText p.input.isSome ++ " writable=" ++ truthText p.output.isSome ++ ">"

@[simp] theorem isOpen_close (p : Port) : p.close.isOpen = false := rfl

@[simp] theorem close_close (p : Port) : p.close.close = p.close := rfl

@[simp] theorem written_close (p : Port) : p.close.written = p.written := rfl

end Port

/-- Reading from memory is reading from its stream. -/
theorem Input.readDatum_memory (fs : FileSystem) (s : CharStream) :
    Input.readDatum fs ⟨s, .memory⟩ =
      ((Reader.readDatum.run s).1, ⟨(Reader.readDatum.run s).2, .memory⟩) := rfl

example : fetched 0 20000 = 0 ∧ fetched 1 20000 = 8192 ∧ fetched 8193 20000 = 16384 ∧
    fetched 16385 20000 = 20000 := by decide

end TinyLisp
