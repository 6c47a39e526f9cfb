import TinyLisp.Bindings
import TinyLisp.Datum
import TinyLisp.Event
import TinyLisp.Port
import TinyLisp.Printer

/-!
The state a program works on: environments and ports by their places, files, the text on standard
output, the events reported, and whether tracing is on.  Main statements: what a lookup answers
after each operation on environments.
-/

namespace TinyLisp

structure State where
  nextMark : Nat
  environments : Array Bindings
  ports : Array Port
  files : FileSystem
  console : String
  events : List Event
  tracing : Bool

namespace State

/-- No environment, no port, nothing written and tracing off. -/
def initial (files : FileSystem) : State :=
  ⟨0, #[], #[], files, "", [], false⟩

instance : Inhabited State := ⟨initial .empty⟩

/-! ### Marks and values -/

/-- A mark that no object has. -/
def freshMark : StateM State Mark := fun s =>
  (⟨s.nextMark⟩, { s with nextMark := s.nextMark + 1 })

/-- Makes an object. -/
def make (build : Mark → Value) : StateM State Value :=
  build <$> freshMark

/-- Makes the object with the contents of a datum; each part of it is an object of its own. -/
def makeDatum : Datum → StateM State Value
  | .number n => make (Value.number · n)
  | .string text => make (Value.string · text)
  | .symbol name => make (Value.symbol · name)
  | .boolean b => make (Value.boolean · b)
  | .nil => make Value.nil
  | .pair first rest => do
      let rest ← makeDatum rest
      let first ← makeDatum first
      make (Value.pair · first rest)

/-- Makes the pairs of a list whose chain ends in `tail`. -/
def makeListWithTail : List Value → Value → StateM State Value
  | [], tail => return tail
  | first :: rest, tail => do
      let rest ← makeListWithTail rest tail
      make (Value.pair · first rest)

/-- Makes a proper list. -/
def makeList (vs : List Value) : StateM State Value := do
  makeListWithTail vs (← make Value.nil)

/-! ### Environments -/

/-- The bindings of an environment; none where there is no environment. -/
def bindings (s : State) (env : EnvId) : Bindings :=
  s.environments.getD env.index ∅

/-- The value of a name in an environment. -/
def lookup (s : State) (env : EnvId) (x : String) : Option Value :=
  (s.bindings env).find? x

/-- Makes an environment. -/
def newEnvironment (b : Bindings) : StateM State EnvId := fun s =>
  (⟨s.environments.size⟩, { s with environments := s.environments.push b })

/-- Gives an environment other bindings. -/
def setBindings (s : State) (env : EnvId) (b : Bindings) : State :=
  { s with environments := s.environments.setIfInBounds env.index b }

/-- Sets a name in an environment, whether it was bound or not. -/
def bind (s : State) (env : EnvId) (x : String) (v : Value) : State :=
  s.setBindings env ((s.bindings env).insert x v)

/-- Sets a name that is not bound; refuses to touch one that is. -/
def define (env : EnvId) (x : String) (v : Value) : ExceptT Error (StateM State) Unit := do
  if ((← get).bindings env).contains x then throw (.redefinition x)
  else modify (·.bind env x v)

/-- Lays the bindings of one environment over another. -/
def merge (s : State) (env upper : EnvId) : State :=
  if env = upper then s else s.setBindings env ((s.bindings env).overlay (s.bindings upper))

/-- Makes an environment with the bindings that another has now. -/
def snapshot (env : EnvId) : StateM State EnvId := do
  newEnvironment ((← get).bindings env)

/-- Makes an environment with the procedures of some packs. -/
def installPacks (packs : List Pack) : StateM State EnvId := do
  let mut b := Bindings.empty
  for p in packs.flatMap Pack.members do
    b := b.insert p.name (← make (Value.native · p))
  newEnvironment b

/-- Makes the environment that a program starts in. -/
def initialEnvironment : StateM State EnvId := do
  let env ← installPacks [.arithmetic, .lists, .system, .ports]
  modify fun s =>
    { s with events := .initialEnvironment (s.bindings env).size :: s.events }
  return env

/-- An environment as it is shown to people. -/
def describeEnvironment (s : State) (env : EnvId) : String :=
  "<environment with " ++ (s.bindings env).size.repr ++ " bindings>"

/-! ### Reports and output -/

/-- Reports an event. -/
def report (e : Event) (s : State) : State :=
  { s with events := e :: s.events }

/-- Reports an event if tracing is on. -/
def trace (e : Event) (s : State) : State :=
  if s.tracing then s.report e else s

/-- Puts text on standard output. -/
def print (text : String) (s : State) : State :=
  { s with console := s.console ++ text }

/-! ### Ports -/

/-- Makes a port. -/
def newPort (p : Port) : StateM State PortId := fun s =>
  (⟨s.ports.size⟩, { s with ports := s.ports.push p })

/-- The port at a place; a closed one where there is none. -/
def port (s : State) (id : PortId) : Port :=
  s.ports.getD id.index ⟨none, none, ""⟩

def setPort (s : State) (id : PortId) (p : Port) : State :=
  { s with ports := s.ports.setIfInBounds id.index p }

/-- Lets text take its way out of a sink. -/
def deliver (text : String) : Sink → State → Sink × State
  | .memory, s => (.memory, s)
  | .console, s => (.console, s.print text)
  | .file path offset, s =>
      let bytes := encode text
      (.file path (offset + bytes.length), { s with files := s.files.write path offset bytes })

/-- Writes text to a port that has a writable side; whether it had one. -/
def writePort (id : PortId) (text : String) (s : State) : Bool × State :=
  let p := s.port id
  match p.output with
  | none => (false, s)
  | some sink =>
      let (sink, s) := deliver text sink s
      (true, s.setPort id { p with output := some sink, written := p.written ++ text })

/-- Reads a datum from a port that has a readable side. -/
def readPort (id : PortId) (s : State) : Option (Except Error (Option Datum)) × State :=
  let p := s.port id
  match p.input with
  | none => (none, s)
  | some input =>
      let (result, input) := input.readDatum s.files
      (some result, s.setPort id { p with input := some input })

/-- Closes a port. -/
def closePort (id : PortId) (s : State) : State :=
  s.setPort id (s.port id).close

/-! ### What lookups answer -/

@[simp] theorem bindings_setBindings (s : State) (env other : EnvId) (b : Bindings) :
    (s.setBindings env b).bindings other =
      if env = other ∧ env.index < s.environments.size then b else s.bindings other := by
  obtain ⟨i⟩ := env
  obtain ⟨j⟩ := other
  simp only [bindings, setBindings, Array.getD_eq_getD_getElem?, Array.getElem?_setIfInBounds,
    EnvId.mk.injEq]
  by_cases hij : i = j
  · subst hij
    by_cases hi : i < s.environments.size <;> simp [hi]
  · simp [hij]

/-- Binding sets one name of one environment. -/
theorem lookup_bind (s : State) (env other : EnvId) (x y : String) (v : Value)
    (h : env.index < s.environments.size) :
    (s.bind env x v).lookup other y =
      if env = other ∧ y = x then some v else s.lookup other y := by
  unfold lookup bind
  by_cases henv : env = other
  · subst henv
    simp [h, Bindings.find?_insert]
  · simp [henv]

/-- A new environment has the bindings it was made with, and the others keep theirs. -/
theorem bindings_newEnvironment (s : State) (b : Bindings) (other : EnvId)
    (h : other.index ≤ s.environments.size) :
    ((newEnvironment b).run s).2.bindings other =
      if other = ((newEnvironment b).run s).1 then b else s.bindings other := by
  obtain ⟨j⟩ := other
  simp only [newEnvironment, StateT.run, bindings, Array.getD_eq_getD_getElem?,
    Array.getElem?_push, EnvId.mk.injEq]
  by_cases hj : j = s.environments.size <;> simp [hj]

end State

end TinyLisp
