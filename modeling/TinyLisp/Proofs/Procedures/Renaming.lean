import TinyLisp.Proofs.Objects.Renaming
import TinyLisp.Proofs.Procedures.Marks

/-!
Calls on renamed arguments.  What procedures read off their arguments does not depend on marks, so a
call in a renamed state does what it does, renamed.  Main statement: `call_carries`.
-/

namespace TinyLisp

variable {α α' β β' : Type}

/-! ### Actions -/

/-- The second action does in the renamed state what the first one does in the state, as far as the
marks given out lie in the window of the renaming; results correspond by `f`. -/
def Action.Carries (ρ : Renaming) (f : α → α') (a : Action α) (a' : Action α') : Prop :=
  ∀ s, s.nextMark ≤ (a s).2.nextMark ∧
    (ρ.Covers s.nextMark (a s).2.nextMark →
      a' (s.rename ρ) = ((a s).1.map f, (a s).2.rename ρ))

namespace Action.Carries

variable {ρ : Renaming} {f : α → α'} {g : β → β'}

/-- An action that gives out no marks. -/
theorem of_unmarked {a : Action α} {a' : Action α'} (hmark : ∀ s, (a s).2.nextMark = s.nextMark)
    (h : ∀ s, a' (s.rename ρ) = ((a s).1.map f, (a s).2.rename ρ)) : Carries ρ f a a' :=
  fun s => ⟨Nat.le_of_eq (hmark s).symm, fun _ => h s⟩

theorem pure (a : α) : Carries ρ f (pure a) (pure (f a)) :=
  of_unmarked (fun _ => rfl) fun _ => rfl

theorem throw (e : Error) : Carries ρ f (throw e) (throw e) :=
  of_unmarked (fun _ => rfl) fun _ => rfl

theorem ofExcept {x : Except Error α} {x' : Except Error α'} (h : x' = x.map f) :
    Carries ρ f (ofExcept x) (ofExcept x') :=
  of_unmarked (fun s => by rw [ofExcept_apply]) fun s => by
    rw [ofExcept_apply, ofExcept_apply, h]

/-- A result without marks. -/
theorem ofExcept_same {x x' : Except Error α} (h : x' = x) :
    Carries ρ id (MonadExcept.ofExcept x) (MonadExcept.ofExcept x') :=
  ofExcept (by rw [h]; cases x <;> rfl)

theorem modifyGet {k : State → α × State} (hmark : ∀ s, (k s).2.nextMark = s.nextMark)
    (h : ∀ s, k (s.rename ρ) = ((k s).1, (k s).2.rename ρ)) :
    Carries ρ id (modifyGet k : Action α) (modifyGet k) :=
  of_unmarked hmark fun s => by
    rw [modifyGet_apply, modifyGet_apply, h]
    rfl

theorem bind {a : Action α} {a' : Action α'} {k : α → Action β} {l : α' → Action β'}
    (ha : Carries ρ f a a') (hk : ∀ x, Carries ρ g (k x) (l (f x))) :
    Carries ρ g (a >>= k) (a' >>= l) := by
  intro s
  have hfirst := ha s
  simp only [bind_apply]
  rcases hrun : a s with ⟨e | x, t⟩ <;> rw [hrun] at hfirst
  · refine ⟨hfirst.1, fun hcovers => ?_⟩
    rw [hfirst.2 hcovers]
    rfl
  · obtain ⟨hmark, hrenamed⟩ := hk x t
    refine ⟨Nat.le_trans hfirst.1 hmark, fun hcovers => ?_⟩
    rw [hfirst.2 (hcovers.left hmark)]
    exact hrenamed (hcovers.right hfirst.1)

/-- A sequel to a result without marks. -/
theorem bind_same {a a' : Action α} {k : α → Action β} {l : α → Action β'}
    (ha : Carries ρ id a a') (hk : ∀ x, Carries ρ g (k x) (l x)) :
    Carries ρ g (a >>= k) (a' >>= l) :=
  ha.bind hk

/-- A sequel to a change that marks have no part in. -/
theorem modify_bind {k : State → State} {b : Action β} {b' : Action β'}
    (hmark : ∀ s, (k s).nextMark = s.nextMark) (h : ∀ s, k (s.rename ρ) = (k s).rename ρ)
    (hb : Carries ρ g b b') :
    Carries ρ g (modify k >>= fun _ => b) (modify k >>= fun _ => b') := by
  refine bind_same (of_unmarked hmark fun s => ?_) fun _ => hb
  rw [modify_apply, modify_apply, h]
  rfl

/-- A sequel to looking at the state. -/
theorem get_bind {k : State → Action β} {l : State → Action β'}
    (hk : ∀ s, Carries ρ g (k s) (l (s.rename ρ))) : Carries ρ g (get >>= k) (get >>= l) :=
  fun s => hk s s

theorem make {build build' : Mark → Value}
    (h : ∀ m, build' (ρ.map m) = (build m).rename ρ.map) :
    Carries ρ (Value.rename ρ.map) (State.make build : Action Value)
      (State.make build' : Action Value) := by
  refine fun s => ⟨Nat.le_succ _, fun hcovers => ?_⟩
  have hwindow : ρ.window s.nextMark := hcovers _ (Nat.le_refl _) (Nat.lt_succ_self _)
  have hmark := ρ.map_mark s.nextMark hwindow
  have hmarked := State.rename_marked hwindow
  change (Except.ok (build' ⟨ρ.next s.nextMark⟩), (s.rename ρ).marked) = _
  rw [← hmark, h, hmarked]
  rfl

/-- A pair of two halves made before it. -/
theorem makePair (first rest : Value) :
    Carries ρ (Value.rename ρ.map) (State.make (Value.pair · first rest) : Action Value)
      (State.make (Value.pair · (first.rename ρ.map) (rest.rename ρ.map)) : Action Value) :=
  make fun _ => rfl

theorem makeListWithTail (vs : List Value) (tail : Value) :
    Carries ρ (Value.rename ρ.map) (State.makeListWithTail vs tail : Action Value)
      (State.makeListWithTail (vs.map (Value.rename ρ.map)) (tail.rename ρ.map)) := by
  induction vs with
  | nil => exact pure tail
  | cons v vs ih =>
      exact bind (l := fun rest => (State.make (Value.pair · _ rest) : Action Value)) ih
        (makePair v)

theorem makeList (vs : List Value) :
    Carries ρ (Value.rename ρ.map) (State.makeList vs : Action Value)
      (State.makeList (vs.map (Value.rename ρ.map))) :=
  bind (l := fun tail => (State.makeListWithTail _ tail : Action Value)) (make fun _ => rfl)
    (makeListWithTail vs)

theorem makeDatum (d : Datum) :
    Carries ρ (Value.rename ρ.map) (State.makeDatum d : Action Value) (State.makeDatum d) := by
  induction d with
  | pair first rest ihFirst ihRest =>
      let combine (rest : Value) : Action Value := do
        let first ← State.makeDatum first
        State.make (Value.pair · first rest)
      refine bind (k := combine) (l := combine) ihRest fun rest => ?_
      exact bind (l := fun first => (State.make (Value.pair · first _) : Action Value)) ihFirst
        fun first => makePair first rest
  | _ => exact make fun _ => rfl

end Action.Carries

/-! ### Ports -/

namespace State

variable {ρ : Renaming} (id : PortId) (text : String) (s : State)

theorem readPort_nextMark : (readPort id s).2.nextMark = s.nextMark := by
  unfold readPort
  dsimp only
  split <;> rfl

theorem readPort_rename :
    readPort id (s.rename ρ) = ((readPort id s).1, (readPort id s).2.rename ρ) := by
  have hport : (s.rename ρ).port id = s.port id := rfl
  unfold readPort
  simp only [hport]
  split <;> rfl

theorem deliver_nextMark (sink : Sink) : (deliver text sink s).2.nextMark = s.nextMark := by
  cases sink <;> rfl

theorem deliver_rename (sink : Sink) :
    deliver text sink (s.rename ρ) =
      ((deliver text sink s).1, (deliver text sink s).2.rename ρ) := by
  cases sink <;> rfl

theorem writePort_nextMark : (writePort id text s).2.nextMark = s.nextMark := by
  unfold writePort
  dsimp only
  split
  · rfl
  · exact deliver_nextMark text s _

theorem writePort_rename :
    writePort id text (s.rename ρ) =
      ((writePort id text s).1, (writePort id text s).2.rename ρ) := by
  have hport : (s.rename ρ).port id = s.port id := rfl
  unfold writePort
  simp only [hport, deliver_rename]
  split <;> rfl

end State

/-- The answer about values with other marks. -/
def Answer.rename (f : Mark → Mark) : Answer → Answer
  | value v => value (v.rename f)
  | evaluation expr env => evaluation (expr.rename f) env

namespace Procedures

open TinyLisp.Action

/-! ### Arguments -/

section Arguments

variable {f : Mark → Mark} (p : Native) (args v : Value)

theorem arguments_rename :
    arguments p (args.rename f) = (arguments p args).map (List.map (Value.rename f)) := by
  simp only [arguments, Value.toList?_rename, Value.text_rename]
  cases args.toList? <;> rfl

theorem exactly_rename (n : Nat) :
    exactly p n (args.rename f) = (exactly p n args).map (List.map (Value.rename f)) := by
  rw [exactly, exactly, arguments_rename]
  rcases arguments p args with e | vs
  · rfl
  · change (if (vs.map (Value.rename f)).length = n then _ else _ : Except Error (List Value)) =
      Except.map _ (if vs.length = n then _ else _)
    rw [List.length_map]
    split <;> rfl

theorem one_rename : one p (args.rename f) = (one p args).map (Value.rename f) := by
  rw [one, one, exactly_rename]
  rcases exactly p 1 args with e | _ | ⟨v, _ | ⟨w, vs⟩⟩
  · rfl
  · rfl
  · rfl
  · have hlength : ((v :: w :: vs).map (Value.rename f)).length = (v :: w :: vs).length :=
      List.length_map _
    exact congrArg (fun n => Except.error (Error.native p (.wrongCount 1 n))) hlength

theorem two_rename :
    two p (args.rename f) = (two p args).map (Prod.map (Value.rename f) (Value.rename f)) := by
  rw [two, two, exactly_rename]
  rcases exactly p 2 args with e | _ | ⟨v, _ | ⟨w, _ | ⟨u, vs⟩⟩⟩
  · rfl
  · rfl
  · rfl
  · rfl
  · have hlength : ((v :: w :: u :: vs).map (Value.rename f)).length = (v :: w :: u :: vs).length :=
      List.length_map _
    exact congrArg (fun n => Except.error (Error.native p (.wrongCount 2 n))) hlength

@[simp] theorem numberArgument_rename : numberArgument p (v.rename f) = numberArgument p v := by
  rw [numberArgument, numberArgument, Value.number?_rename, Value.text_rename]

theorem listArgument_rename :
    listArgument p (v.rename f) = (listArgument p v).map (List.map (Value.rename f)) := by
  simp only [listArgument, Value.toList?_rename, Value.text_rename]
  cases v.toList? <;> rfl

theorem pairArgument_rename :
    pairArgument p (v.rename f) =
      (pairArgument p v).map (Prod.map (Value.rename f) (Value.rename f)) := by
  simp only [pairArgument, Value.pair?_rename, Value.text_rename]
  cases v.pair? <;> rfl

@[simp] theorem environmentArgument_rename :
    environmentArgument p (v.rename f) = environmentArgument p v := by
  rw [environmentArgument, environmentArgument, Value.environment?_rename, Value.text_rename]

@[simp] theorem fileNameArgument_rename :
    fileNameArgument p (v.rename f) = fileNameArgument p v := by
  rw [fileNameArgument, fileNameArgument, Value.string?_rename, Value.text_rename]

@[simp] theorem portArgument_rename : portArgument p (v.rename f) = portArgument p v := by
  rw [portArgument, portArgument, Value.port?_rename, Value.text_rename]

/-- What is read off the elements of an argument list without their marks. -/
theorem mapM_rename {read : Value → Except Error α} (h : ∀ v, read (v.rename f) = read v)
    (vs : List Value) : (vs.map (Value.rename f)).mapM read = vs.mapM read := by
  induction vs with
  | nil => rfl
  | cons v vs ih => rw [List.map_cons, List.mapM_cons, List.mapM_cons, ih, h]

/-- What is read off the only argument, marks included. -/
theorem one_bind_map {read : Value → Except Error α} {read' : Value → Except Error α'} {g : α → α'}
    (h : ∀ v, read' (v.rename f) = (read v).map g) :
    (one p (args.rename f) >>= read') = (one p args >>= read).map g := by
  rw [one_rename]
  cases one p args with
  | error e => rfl
  | ok v => exact h v

/-- What is read off the only argument without its marks. -/
theorem one_bind_rename {read : Value → Except Error α} (h : ∀ v, read (v.rename f) = read v) :
    (one p (args.rename f) >>= read) = (one p args >>= read) := by
  rw [one_rename]
  cases one p args with
  | error e => rfl
  | ok v => exact h v

/-- What is read off the two arguments without their marks. -/
theorem two_bind_rename {read : Value × Value → Except Error α}
    (h : ∀ v w, read (v.rename f, w.rename f) = read (v, w)) :
    (two p (args.rename f) >>= read) = (two p args >>= read) := by
  rw [two_rename]
  cases two p args with
  | error e => rfl
  | ok halves => exact h halves.1 halves.2

theorem numbers_rename : numbers p (args.rename f) = numbers p args := by
  rw [numbers, numbers, arguments_rename]
  cases arguments p args with
  | error e => rfl
  | ok vs => exact mapM_rename (fun v => numberArgument_rename p v) vs

end Arguments

/-! ### Results -/

section Results

variable {f : Mark → Mark} (p : Native) (args : Value)

theorem sum_rename : sum (args.rename f) = sum args := by
  rw [sum, sum, numbers_rename]

theorem product_rename : product (args.rename f) = product args := by
  rw [product, product, numbers_rename]

theorem difference_rename : difference (args.rename f) = difference args := by
  rw [difference, difference, numbers_rename]

theorem division_rename (op : Int → Int → Int) :
    division p op (args.rename f) = division p op args :=
  two_bind_rename p args fun v w => by
    dsimp only
    rw [numberArgument_rename, numberArgument_rename]

theorem comparison_rename (r : Int → Int → Bool) :
    comparison p r (args.rename f) = comparison p r args := by
  rw [comparison, comparison, numbers_rename]

theorem extremum_rename (pick : Int → Int → Int) :
    extremum p pick (args.rename f) = extremum p pick args := by
  rw [extremum, extremum, numbers_rename]

theorem isZero_rename : isZero (args.rename f) = isZero args :=
  one_bind_rename _ args fun v => by rw [numberArgument_rename]

theorem length_rename : length (args.rename f) = length args :=
  one_bind_rename _ args fun v => by
    rw [listArgument_rename]
    cases listArgument .length v with
    | error e => rfl
    | ok vs => exact congrArg (fun n : Nat => Except.ok (n : Int)) (List.length_map _)

theorem compared_rename {relation : Value → Value → Bool}
    (h : ∀ v w, relation (v.rename f) (w.rename f) = relation v w) :
    compared p relation (args.rename f) = compared p relation args :=
  two_bind_rename p args fun v w => congrArg Except.ok (h v w)

theorem car_rename : car (args.rename f) = (car args).map (Value.rename f) :=
  one_bind_map .car args fun v => by
    rw [pairArgument_rename]
    cases pairArgument .car v <;> rfl

theorem cdr_rename : cdr (args.rename f) = (cdr args).map (Value.rename f) :=
  one_bind_map .cdr args fun v => by
    rw [pairArgument_rename]
    cases pairArgument .cdr v <;> rfl

theorem concatenated_rename (vs : List Value) :
    concatenated p (vs.map (Value.rename f)) =
      (concatenated p vs).map (List.map (Value.rename f)) := by
  induction vs with
  | nil => rfl
  | cons v vs ih =>
      rw [List.map_cons, concatenated, concatenated, ih]
      cases concatenated p vs with
      | error e => rfl
      | ok after =>
          change (listArgument p (v.rename f) >>= _) = Except.map _ (listArgument p v >>= _)
          rw [listArgument_rename]
          cases listArgument p v with
          | error e => rfl
          | ok items => exact congrArg Except.ok List.map_append.symm

end Results

/-! ### Calls -/

section Calls

variable {ρ : Renaming} (p : Native) (args : Value)

theorem answering_carries {a a' : Action Value} (h : Carries ρ (Value.rename ρ.map) a a') :
    Carries ρ (Answer.rename ρ.map) (answering a) (answering a') :=
  h.bind fun v => Carries.pure (f := Answer.rename ρ.map) (.value v)

theorem makeNumber_carries {x x' : Except Error Int} (h : x' = x) :
    Carries ρ (Value.rename ρ.map) (makeNumber x) (makeNumber x') :=
  (Carries.ofExcept_same h).bind_same fun _ => .make fun _ => rfl

theorem makeBoolean_carries {x x' : Except Error Bool} (h : x' = x) :
    Carries ρ (Value.rename ρ.map) (makeBoolean x) (makeBoolean x') :=
  (Carries.ofExcept_same h).bind_same fun _ => .make fun _ => rfl

theorem makeTest_carries {test : Value → Bool} (h : ∀ v, test (v.rename ρ.map) = test v) :
    Carries ρ (Value.rename ρ.map) (makeTest p test args)
      (makeTest p test (args.rename ρ.map)) := by
  refine makeBoolean_carries ?_
  rw [one_rename]
  cases one p args with
  | error e => rfl
  | ok v => exact congrArg Except.ok (h v)

theorem makePort_carries (port : Port) :
    Carries ρ (Value.rename ρ.map) (makePort port) (makePort port) :=
  (Carries.of_unmarked (fun _ => rfl) fun _ => rfl).bind_same fun _ => .make fun _ => rfl

theorem cons_carries : Carries ρ (Value.rename ρ.map) (cons args) (cons (args.rename ρ.map)) :=
  (Carries.ofExcept (two_rename .cons args)).bind fun halves => .makePair halves.1 halves.2

theorem reverse_carries :
    Carries ρ (Value.rename ρ.map) (reverse args) (reverse (args.rename ρ.map)) := by
  have hlist := one_bind_map .reverse args (listArgument_rename (f := ρ.map) .reverse)
  refine (Carries.ofExcept hlist).bind fun vs => ?_
  rw [← List.map_reverse]
  exact .makeList vs.reverse

theorem append_carries :
    Carries ρ (Value.rename ρ.map) (append args) (append (args.rename ρ.map)) := by
  refine (Carries.ofExcept (arguments_rename .append args)).bind fun vs => ?_
  rw [← List.map_dropLast, List.getLast?_map]
  refine (Carries.ofExcept (concatenated_rename .append vs.dropLast)).bind fun items => ?_
  cases vs.getLast? with
  | none => exact .make fun _ => rfl
  | some tail => exact .makeListWithTail items tail

theorem eval_carries : Carries ρ (Answer.rename ρ.map) (eval args) (eval (args.rename ρ.map)) := by
  refine (Carries.ofExcept (two_rename .eval args)).bind fun halves => ?_
  exact (Carries.ofExcept_same (environmentArgument_rename _ _)).bind_same fun env =>
    .pure (f := Answer.rename ρ.map) (.evaluation halves.1 env)

/-! ### Calls for ports -/

/-- What is read off the only argument without its marks, as an action. -/
theorem ofExcept_one_carries {read : Value → Except Error α}
    (h : ∀ v, read (v.rename ρ.map) = read v) :
    Carries ρ id (ofExcept (one p args >>= read)) (ofExcept (one p (args.rename ρ.map) >>= read)) :=
  .ofExcept_same (one_bind_rename p args h)

theorem openInput_carries :
    Carries ρ (Value.rename ρ.map) (openInput args) (openInput (args.rename ρ.map)) := by
  refine (ofExcept_one_carries _ args (fileNameArgument_rename _)).bind_same fun name => ?_
  refine .modify_bind (fun _ => rfl) (fun _ => rfl) (.get_bind fun s => ?_)
  rw [State.files_rename]
  cases s.files.locate name with
  | error cause => exact .throw _
  | ok found => exact makePort_carries _

theorem openOutput_carries :
    Carries ρ (Value.rename ρ.map) (openOutput args) (openOutput (args.rename ρ.map)) := by
  refine (ofExcept_one_carries _ args (fileNameArgument_rename _)).bind_same fun name => ?_
  refine .modify_bind (fun _ => rfl) (fun _ => rfl) (.get_bind fun s => ?_)
  rw [State.files_rename]
  cases s.files.create name with
  | error cause => exact .throw _
  | ok created => exact .modify_bind (fun _ => rfl) (fun _ => rfl) (makePort_carries _)

theorem closePort_carries :
    Carries ρ (Value.rename ρ.map) (closePort args) (closePort (args.rename ρ.map)) := by
  refine (ofExcept_one_carries _ args (portArgument_rename _)).bind_same fun id => ?_
  exact .modify_bind (fun _ => rfl) (fun _ => rfl) (.make fun _ => rfl)

theorem read_carries :
    Carries ρ (Value.rename ρ.map) (read args) (read (args.rename ρ.map)) := by
  refine (ofExcept_one_carries _ args (portArgument_rename _)).bind_same fun id => ?_
  have hread := Carries.modifyGet (ρ := ρ) (State.readPort_nextMark id) (State.readPort_rename id)
  refine hread.bind_same fun result => ?_
  rcases result with _ | e | _ | d
  · exact .throw _
  · exact .throw _
  · exact .make fun _ => rfl
  · exact .makeDatum d

theorem output_carries (text : String) (target : Option PortId) :
    Carries ρ (Value.rename ρ.map) (output text target) (output text target) := by
  cases target with
  | none =>
      exact .modify_bind (fun _ => rfl) (fun _ => rfl) (.make fun _ => rfl)
  | some id =>
      have hwrite := Carries.modifyGet (ρ := ρ) (State.writePort_nextMark id text)
        (State.writePort_rename id text)
      refine hwrite.bind_same fun written => ?_
      cases written with
      | true => exact .make fun _ => rfl
      | false => exact .throw _

/-- Writes to the port that a value stands for. -/
theorem portArgument_output_carries (text : String) (port : Value) :
    Carries ρ (Value.rename ρ.map)
      (do let id ← ofExcept (portArgument p port); output text (some id))
      (do let id ← ofExcept (portArgument p (port.rename ρ.map)); output text (some id)) :=
  (Carries.ofExcept_same (portArgument_rename p port)).bind_same fun id =>
    output_carries text (some id)

theorem outputValue_carries {form : Value → String} (h : ∀ v, form (v.rename ρ.map) = form v) :
    Carries ρ (Value.rename ρ.map) (outputValue p form args)
      (outputValue p form (args.rename ρ.map)) := by
  refine (Carries.ofExcept (arguments_rename p args)).bind fun vs => ?_
  rcases vs with _ | ⟨v, _ | ⟨port, _ | ⟨w, vs⟩⟩⟩
  · exact .throw _
  · simp only [List.map_cons, List.map_nil, h]
    exact output_carries (form v) none
  · simp only [List.map_cons, List.map_nil, h]
    exact portArgument_output_carries p (form v) port
  · exact .throw _

theorem newline_carries :
    Carries ρ (Value.rename ρ.map) (newline args) (newline (args.rename ρ.map)) := by
  refine (Carries.ofExcept (arguments_rename .newline args)).bind fun vs => ?_
  rcases vs with _ | ⟨port, _ | ⟨w, vs⟩⟩
  · exact output_carries "\n" none
  · exact portArgument_output_carries .newline "\n" port
  · exact .throw _

theorem currentOutput_carries :
    Carries ρ (Value.rename ρ.map) (currentOutput args) (currentOutput (args.rename ρ.map)) :=
  (Carries.ofExcept (exactly_rename .currentOutput args 0)).bind fun _ => makePort_carries _

/-- A call on renamed arguments in a renamed state does what it does, renamed. -/
theorem call_carries :
    Carries ρ (Answer.rename ρ.map) (call p args) (call p (args.rename ρ.map)) := by
  cases p with
  | sum => exact answering_carries (makeNumber_carries (sum_rename args))
  | difference => exact answering_carries (makeNumber_carries (difference_rename args))
  | product => exact answering_carries (makeNumber_carries (product_rename args))
  | quotient => exact answering_carries (makeNumber_carries (division_rename _ args _))
  | remainder => exact answering_carries (makeNumber_carries (division_rename _ args _))
  | numberEq | less | greater | lessEq | greaterEq =>
      exact answering_carries (makeBoolean_carries (comparison_rename _ args _))
  | isZero => exact answering_carries (makeBoolean_carries (isZero_rename args))
  | maximum | minimum => exact answering_carries (makeNumber_carries (extremum_rename _ args _))
  | cons => exact answering_carries (cons_carries args)
  | car => exact answering_carries (.ofExcept (car_rename args))
  | cdr => exact answering_carries (.ofExcept (cdr_rename args))
  | list => exact answering_carries (.pure args)
  | length => exact answering_carries (makeNumber_carries (length_rename args))
  | reverse => exact answering_carries (reverse_carries args)
  | append => exact answering_carries (append_carries args)
  | isEqv =>
      have heqv (v w : Value) := Value.eqv_rename (v := v) (w := w) ρ.injective
      exact answering_carries (makeBoolean_carries (compared_rename _ args heqv))
  | isEqual =>
      have hequal (v w : Value) := Value.equal_rename (v := v) (w := w) ρ.injective
      exact answering_carries (makeBoolean_carries (compared_rename _ args hequal))
  | eval => exact eval_carries args
  | openInput => exact answering_carries (openInput_carries args)
  | openOutput => exact answering_carries (openOutput_carries args)
  | closePort => exact answering_carries (closePort_carries args)
  | read => exact answering_carries (read_carries args)
  | write => exact answering_carries (outputValue_carries _ args fun _ => Value.text_rename)
  | display => exact answering_carries (outputValue_carries _ args fun _ => Value.displayed_rename)
  | newline => exact answering_carries (newline_carries args)
  | currentOutput => exact answering_carries (currentOutput_carries args)
  | _ => exact answering_carries (makeTest_carries _ args fun v => by simp)

end Calls

end Procedures

end TinyLisp
