import TinyLisp.Procedures.Call

/-!
What calling a built-in procedure can do to the rest of the program.  Main statement:
`call_confined`, a call touches no environment and leaves tracing as it was, and its answer is built
from its arguments and from values that lead nowhere.
-/

namespace TinyLisp

variable {α β : Type}

/-- A value that is no procedure, no environment and no symbol, and has no parts. -/
def Value.isPlain : Value → Bool
  | .symbol _ _ => false
  | .pair _ _ _ => false
  | .lambda _ _ _ _ => false
  | .native _ _ => false
  | .environment _ _ => false
  | _ => true

/-- A plain value stands for itself. -/
theorem Value.constant_of_isPlain {v : Value} (h : v.isPlain = true) :
    v.symbol? = none ∧ v.isPair = false := by
  cases v with
  | symbol m name => cases h
  | pair m first rest => cases h
  | _ => exact ⟨rfl, rfl⟩

/-- A property that plain values have and that a pair has exactly when both halves have it. -/
structure Value.Hereditary (P : Value → Prop) : Prop where
  plain : ∀ v, v.isPlain = true → P v
  pair_iff : ∀ m first rest, P (.pair m first rest) ↔ P first ∧ P rest

/-- The same with nothing said about ports, which are plain but not made everywhere. -/
structure Value.Inherited (P : Value → Prop) : Prop where
  plain : ∀ v, v.isPlain = true → v.port? = none → P v
  pair_iff : ∀ m first rest, P (.pair m first rest) ↔ P first ∧ P rest

theorem Value.Hereditary.inherited {P : Value → Prop} (hP : Hereditary P) : Inherited P :=
  ⟨fun v hv _ => hP.plain v hv, hP.pair_iff⟩

namespace Value.Inherited

variable {P : Value → Prop} (hP : Inherited P)

include hP

theorem of_mem_elements {v w : Value} (hv : P v) (hw : w ∈ v.elements) : P w := by
  induction v with
  | pair m first rest _ ih =>
      obtain ⟨hfirst, hrest⟩ := (hP.pair_iff m first rest).mp hv
      rcases List.mem_cons.mp hw with rfl | hw
      · exact hfirst
      · exact ih hrest hw
  | _ => simp [elements] at hw

theorem makeListWithTail {vs : List Value} {tail : Value} (hvs : ∀ v ∈ vs, P v) (htail : P tail)
    (s : State) : P (State.makeListWithTail vs tail s).1 := by
  induction vs with
  | nil => exact htail
  | cons first vs ih =>
      have hrest := ih fun v hv => hvs v (List.mem_cons_of_mem first hv)
      exact (hP.pair_iff _ _ _).mpr ⟨hvs first List.mem_cons_self, hrest⟩

theorem makeDatum (hsymbol : ∀ m x, P (.symbol m x)) (d : Datum) (s : State) :
    P (State.makeDatum d s).1 := by
  induction d generalizing s with
  | symbol x => exact hsymbol _ x
  | pair first rest ihFirst ihRest =>
      exact (hP.pair_iff _ _ _).mpr ⟨ihFirst (State.makeDatum rest s).2, ihRest s⟩
  | _ => exact hP.plain _ rfl rfl

end Value.Inherited

/-- Environments and tracing are the same in both states. -/
structure State.Undisturbed (s t : State) : Prop where
  environments : t.environments = s.environments
  tracing : t.tracing = s.tracing

namespace State.Undisturbed

theorem refl (s : State) : Undisturbed s s :=
  ⟨rfl, rfl⟩

theorem trans {s t u : State} (h : Undisturbed s t) (h' : Undisturbed t u) : Undisturbed s u :=
  ⟨h'.environments.trans h.environments, h'.tracing.trans h.tracing⟩

theorem of_make {s t : State} {n : Nat} (h : Undisturbed { s with nextMark := n } t) :
    Undisturbed s t :=
  ⟨h.environments, h.tracing⟩

theorem makeListWithTail (vs : List Value) (tail : Value) (s : State) :
    Undisturbed s (State.makeListWithTail vs tail s).2 := by
  induction vs with
  | nil => exact refl s
  | cons first vs ih => exact ih.trans ⟨rfl, rfl⟩

theorem makeDatum (d : Datum) (s : State) : Undisturbed s (State.makeDatum d s).2 := by
  induction d generalizing s with
  | pair first rest ihFirst ihRest =>
      have hparts := (ihRest s).trans (ihFirst (State.makeDatum rest s).2)
      exact hparts.trans ⟨rfl, rfl⟩
  | _ => exact ⟨rfl, rfl⟩

theorem writePort (id : PortId) (text : String) (s : State) :
    Undisturbed s (State.writePort id text s).2 := by
  simp only [State.writePort]
  split
  · exact refl s
  · next sink _ => cases sink <;> exact ⟨rfl, rfl⟩

theorem readPort (id : PortId) (s : State) : Undisturbed s (State.readPort id s).2 := by
  simp only [State.readPort]
  split
  · exact refl s
  · exact ⟨rfl, rfl⟩

end State.Undisturbed

/-- Whatever a computation succeeds with has a property. -/
def Yields {ε : Type} (x : Except ε α) (P : α → Prop) : Prop :=
  ∀ a, x = .ok a → P a

namespace Yields

variable {ε : Type} {P : β → Prop} {Q : α → Prop}

theorem bind {x : Except ε α} {f : α → Except ε β} (hx : Yields x Q)
    (hf : ∀ a, Q a → Yields (f a) P) : Yields (x >>= f) P := by
  intro b hb
  cases hresult : x with
  | error e =>
      rw [hresult] at hb
      cases hb
  | ok a =>
      rw [hresult] at hb
      exact hf a (hx a hresult) b hb

theorem pure {b : β} (h : P b) : Yields (Pure.pure b : Except ε β) P := by
  intro b' hb
  cases hb
  exact h

theorem throw (e : ε) : Yields (MonadExcept.throw e : Except ε β) P := by
  intro b hb
  cases hb

theorem top (x : Except ε α) : Yields x fun _ => True :=
  fun _ _ => trivial

end Yields

/-- An action that leaves environments and tracing alone and succeeds only with values that have a
property. -/
def Confined (P : α → Prop) (action : Action α) : Prop :=
  ∀ s, State.Undisturbed s (action s).2 ∧ Yields (action s).1 P

namespace Confined

variable {P : β → Prop} {Q : α → Prop}

theorem pure {b : β} (h : P b) : Confined P (Pure.pure b) :=
  fun s => ⟨.refl s, .pure h⟩

theorem throw (e : Error) : Confined P (MonadExcept.throw e) :=
  fun s => ⟨.refl s, .throw e⟩

theorem ofExcept {x : Except Error β} (h : Yields x P) : Confined P (ofExcept x) := by
  intro s
  cases x with
  | error e => exact ⟨.refl s, .throw e⟩
  | ok b => exact ⟨.refl s, .pure (h b rfl)⟩

theorem lift {action : StateM State β} (hstate : ∀ s, State.Undisturbed s (action s).2)
    (hvalue : ∀ s, P (action s).1) : Confined P (liftM action : Action β) :=
  fun s => ⟨hstate s, .pure (hvalue s)⟩

theorem bind {action : Action α} {f : α → Action β} (h : Confined Q action)
    (hf : ∀ a, Q a → Confined P (f a)) : Confined P (action >>= f) := by
  intro s
  change State.Undisturbed s (ExceptT.bindCont f (action s).1 (action s).2).2 ∧
    Yields (ExceptT.bindCont f (action s).1 (action s).2).1 P
  obtain ⟨hstate, hvalue⟩ := h s
  cases hresult : (action s).1 with
  | error e => exact ⟨hstate, .throw e⟩
  | ok a =>
      obtain ⟨hstate', hvalue'⟩ := hf a (hvalue a hresult) (action s).2
      exact ⟨hstate.trans hstate', hvalue'⟩

end Confined

/-- The procedures that make ports. -/
def Native.opensPorts : Native → Bool
  | .openInput => true
  | .openOutput => true
  | .currentOutput => true
  | _ => false

/-- What an answer leads to has a property: its value or, of an evaluation, the expression and the
environment. -/
def Answer.All (P : Value → Prop) : Answer → Prop
  | .value v => P v
  | .evaluation expr env => P expr ∧ ∃ m, P (.environment m env)

namespace Procedures

/-! ### Arguments -/

theorem environmentArgument_yields {P : Value → Prop} (p : Native) {v : Value} (hv : P v) :
    Yields (environmentArgument p v) fun env => ∃ m, P (.environment m env) := by
  unfold environmentArgument
  cases v with
  | environment m env => exact .pure ⟨m, hv⟩
  | _ => exact .throw _

section Arguments

variable {P : Value → Prop} (hP : Value.Inherited P) {args : Value} (hargs : P args)

include hP hargs

theorem arguments_yields (p : Native) : Yields (arguments p args) fun vs => ∀ v ∈ vs, P v := by
  intro vs hvs v hv
  obtain ⟨_, rfl⟩ := Value.toList?_eq_some_iff.mp (arguments_eq_ok_iff.mp hvs)
  exact hP.of_mem_elements hargs hv

theorem exactly_yields (p : Native) (n : Nat) :
    Yields (exactly p n args) fun vs => ∀ v ∈ vs, P v := by
  refine (arguments_yields hP hargs p).bind fun vs hvs => ?_
  split
  · exact .pure hvs
  · exact .throw _

theorem one_yields (p : Native) : Yields (one p args) P := by
  refine (exactly_yields hP hargs p 1).bind fun vs hvs => ?_
  split
  · next v => exact .pure (hvs v List.mem_cons_self)
  · exact .throw _

theorem two_yields (p : Native) : Yields (two p args) fun halves => P halves.1 ∧ P halves.2 := by
  refine (exactly_yields hP hargs p 2).bind fun vs hvs => ?_
  split
  · next v w => exact .pure ⟨hvs v (by simp), hvs w (by simp)⟩
  · exact .throw _

theorem pairArgument_yields (p : Native) :
    Yields (pairArgument p args) fun halves => P halves.1 ∧ P halves.2 := by
  unfold pairArgument
  cases args with
  | pair m first rest => exact .pure ((hP.pair_iff m first rest).mp hargs)
  | _ => exact .throw _

theorem listArgument_yields (p : Native) :
    Yields (listArgument p args) fun vs => ∀ v ∈ vs, P v := by
  unfold listArgument
  split
  · next vs hvs =>
      obtain ⟨_, rfl⟩ := Value.toList?_eq_some_iff.mp hvs
      exact .pure fun v hv => hP.of_mem_elements hargs hv
  · exact .throw _

end Arguments

/-! ### Procedures -/

section Calls

variable {P : Value → Prop}

theorem answering_confined {action : Action Value} (h : Confined P action) :
    Confined (Answer.All P) (answering action) :=
  h.bind fun _ hv => .pure hv

theorem make_confined {build : Mark → Value} (h : ∀ m, P (build m)) :
    Confined P (State.make build : Action Value) :=
  .lift (fun _ => ⟨rfl, rfl⟩) fun s => h ⟨s.nextMark⟩

variable (hP : Value.Inherited P)

include hP

theorem makeNumber_confined (result : Except Error Int) : Confined P (makeNumber result) :=
  (Confined.ofExcept (.top result)).bind fun _ _ => make_confined fun _ => hP.plain _ rfl rfl

theorem makeBoolean_confined (result : Except Error Bool) : Confined P (makeBoolean result) :=
  (Confined.ofExcept (.top result)).bind fun _ _ => make_confined fun _ => hP.plain _ rfl rfl

theorem cons_confined {args : Value} (hargs : P args) : Confined P (cons args) :=
  (Confined.ofExcept (two_yields hP hargs .cons)).bind fun halves hhalves =>
    make_confined fun m => (hP.pair_iff m halves.1 halves.2).mpr hhalves

theorem car_yields {args : Value} (hargs : P args) : Yields (car args) P :=
  (one_yields hP hargs .car).bind fun _ hv =>
    (pairArgument_yields hP hv .car).bind fun _ hhalves => .pure hhalves.1

theorem cdr_yields {args : Value} (hargs : P args) : Yields (cdr args) P :=
  (one_yields hP hargs .cdr).bind fun _ hv =>
    (pairArgument_yields hP hv .cdr).bind fun _ hhalves => .pure hhalves.2

theorem makeListWithTail_confined {vs : List Value} {tail : Value} (hvs : ∀ v ∈ vs, P v)
    (htail : P tail) : Confined P (State.makeListWithTail vs tail : Action Value) :=
  .lift (State.Undisturbed.makeListWithTail vs tail) (hP.makeListWithTail hvs htail)

theorem reverse_confined {args : Value} (hargs : P args) : Confined P (reverse args) := by
  refine (Confined.ofExcept ((one_yields hP hargs .reverse).bind fun _ hv =>
    listArgument_yields hP hv .reverse)).bind fun vs hvs => ?_
  refine .lift (fun s => ?_) fun s => ?_
  · exact (State.Undisturbed.makeListWithTail vs.reverse (.nil ⟨s.nextMark⟩)
      { s with nextMark := s.nextMark + 1 }).of_make
  · refine hP.makeListWithTail (fun v hv => hvs v ?_) (hP.plain _ rfl rfl) _
    exact List.mem_reverse.mp hv

theorem concatenated_yields (p : Native) {vs : List Value} (hvs : ∀ v ∈ vs, P v) :
    Yields (concatenated p vs) fun items => ∀ v ∈ items, P v := by
  induction vs with
  | nil => exact .pure nofun
  | cons v rest ih =>
      refine (ih fun w hw => hvs w (List.mem_cons_of_mem v hw)).bind fun after hafter => ?_
      refine (listArgument_yields hP (hvs v List.mem_cons_self) p).bind fun items hitems => ?_
      refine .pure fun w hw => ?_
      rcases List.mem_append.mp hw with hw | hw
      · exact hitems w hw
      · exact hafter w hw

theorem append_confined {args : Value} (hargs : P args) : Confined P (append args) := by
  refine (Confined.ofExcept (arguments_yields hP hargs .append)).bind fun vs hvs => ?_
  have hinit : ∀ v ∈ vs.dropLast, P v := fun v hv => hvs v ((List.dropLast_sublist vs).subset hv)
  refine (Confined.ofExcept (concatenated_yields hP .append hinit)).bind fun items hitems => ?_
  split
  · exact make_confined fun _ => hP.plain _ rfl rfl
  · next tail htail =>
      exact makeListWithTail_confined hP hitems (hvs tail (List.mem_of_getLast? htail))

section Opening

variable (hport : ∀ m id, P (.port m id))

include hport

omit hP in
theorem makePort_confined (p : Port) : Confined P (makePort p) :=
  (Confined.lift (P := fun _ => True) (fun _ => ⟨rfl, rfl⟩) fun _ => trivial).bind fun _ _ =>
    make_confined fun _ => hport _ _

omit hP in
theorem openInput_confined (args : Value) : Confined P (openInput args) := by
  refine (Confined.ofExcept (.top _)).bind fun name _ => ?_
  refine Confined.bind (Q := fun _ => True) (fun s => ⟨⟨rfl, rfl⟩, .top _⟩) fun _ _ => ?_
  refine Confined.bind (Q := fun _ => True) (fun s => ⟨.refl s, .top _⟩) fun s _ => ?_
  split
  · exact .throw _
  · exact makePort_confined hport _

omit hP in
theorem openOutput_confined (args : Value) : Confined P (openOutput args) := by
  refine (Confined.ofExcept (.top _)).bind fun name _ => ?_
  refine Confined.bind (Q := fun _ => True) (fun s => ⟨⟨rfl, rfl⟩, .top _⟩) fun _ _ => ?_
  refine Confined.bind (Q := fun _ => True) (fun s => ⟨.refl s, .top _⟩) fun s _ => ?_
  split
  · exact .throw _
  · refine Confined.bind (Q := fun _ => True) (fun s => ⟨⟨rfl, rfl⟩, .top _⟩) fun _ _ => ?_
    exact makePort_confined hport _

omit hP in
theorem currentOutput_confined (args : Value) : Confined P (currentOutput args) :=
  (Confined.ofExcept (.top _)).bind fun _ _ => makePort_confined hport _

end Opening

theorem closePort_confined (args : Value) : Confined P (closePort args) := by
  refine (Confined.ofExcept (.top _)).bind fun id _ => ?_
  refine Confined.bind (Q := fun _ => True) (fun s => ⟨⟨rfl, rfl⟩, .top _⟩) fun _ _ => ?_
  exact make_confined fun _ => hP.plain _ rfl rfl

theorem read_confined (hsymbol : ∀ m x, P (.symbol m x)) (args : Value) :
    Confined P (read args) := by
  refine (Confined.ofExcept (.top _)).bind fun id _ => ?_
  refine Confined.bind (Q := fun _ => True) (fun s => ⟨.readPort id s, .top _⟩) fun answer _ => ?_
  split
  · exact .throw _
  · exact .throw _
  · exact make_confined fun _ => hP.plain _ rfl rfl
  · next d => exact .lift (.makeDatum d) (hP.makeDatum hsymbol d)

theorem output_confined (text : String) (id : Option PortId) : Confined P (output text id) := by
  cases id with
  | none =>
      refine Confined.bind (Q := fun _ => True) (fun s => ⟨⟨rfl, rfl⟩, .top _⟩) fun _ _ => ?_
      exact make_confined fun _ => hP.plain _ rfl rfl
  | some id =>
      refine Confined.bind (Q := fun _ => True) (fun s => ⟨.writePort id text s, .top _⟩)
        fun written _ => ?_
      split
      · exact make_confined fun _ => hP.plain _ rfl rfl
      · exact .throw _

theorem outputValue_confined (p : Native) (form : Value → String) (args : Value) :
    Confined P (outputValue p form args) := by
  refine (Confined.ofExcept (.top _)).bind fun vs _ => ?_
  split
  · exact output_confined hP _ none
  · exact (Confined.ofExcept (.top _)).bind fun id _ => output_confined hP _ (some id)
  · exact .throw _

theorem newline_confined (args : Value) : Confined P (newline args) := by
  refine (Confined.ofExcept (.top _)).bind fun vs _ => ?_
  split
  · exact output_confined hP _ none
  · exact (Confined.ofExcept (.top _)).bind fun id _ => output_confined hP _ (some id)
  · exact .throw _

theorem eval_confined {args : Value} (hargs : P args) : Confined (Answer.All P) (eval args) :=
  (Confined.ofExcept (two_yields hP hargs .eval)).bind fun _ hhalves =>
    (Confined.ofExcept (environmentArgument_yields .eval hhalves.2)).bind fun _ henv =>
      .pure ⟨hhalves.1, henv⟩

/-- A call touches no environment, leaves tracing as it was, and answers with what is built from its
arguments, from plain values and, if it opens one, from a port; only `read` makes symbols. -/
theorem call_confined_of_inherited (p : Native) (hsymbol : p = .read → ∀ m x, P (.symbol m x))
    (hport : p.opensPorts = true → ∀ m id, P (.port m id)) {args : Value} (hargs : P args) :
    Confined (Answer.All P) (call p args) := by
  cases p with
  | cons => exact answering_confined (cons_confined hP hargs)
  | car => exact answering_confined (.ofExcept (car_yields hP hargs))
  | cdr => exact answering_confined (.ofExcept (cdr_yields hP hargs))
  | list => exact answering_confined (.pure hargs)
  | reverse => exact answering_confined (reverse_confined hP hargs)
  | append => exact answering_confined (append_confined hP hargs)
  | eval => exact eval_confined hP hargs
  | openInput => exact answering_confined (openInput_confined (hport rfl) args)
  | openOutput => exact answering_confined (openOutput_confined (hport rfl) args)
  | closePort => exact answering_confined (closePort_confined hP args)
  | read => exact answering_confined (read_confined hP (hsymbol rfl) args)
  | write => exact answering_confined (outputValue_confined hP _ _ args)
  | display => exact answering_confined (outputValue_confined hP _ _ args)
  | newline => exact answering_confined (newline_confined hP args)
  | currentOutput => exact answering_confined (currentOutput_confined (hport rfl) args)
  | sum | difference | product | quotient | remainder | maximum | minimum | length =>
      exact answering_confined (makeNumber_confined hP _)
  | _ => exact answering_confined (makeBoolean_confined hP _)

omit hP in
/-- A call touches no environment, leaves tracing as it was, and answers with what is built from its
arguments and plain values; only `read` makes symbols. -/
theorem call_confined (hP : Value.Hereditary P) (p : Native)
    (hsymbol : p = .read → ∀ m x, P (.symbol m x)) {args : Value} (hargs : P args) :
    Confined (Answer.All P) (call p args) :=
  call_confined_of_inherited hP.inherited p hsymbol (fun _ _ _ => hP.plain _ rfl) hargs

end Calls

end Procedures

end TinyLisp
