import TinyLisp.Proofs.Environments.Closures
import TinyLisp.Proofs.Environments.Independence

/-!
Lambdas and their callers.  The environment of a body lies over that of its caller, yet a body that
has captured all it needs finds nothing there.  What a caller can still do is bind the names of
special forms; and a lambda or `eval` that the body is handed may come to what the caller binds.
Main statement: `caller_does_not_matter`.
-/

namespace TinyLisp

open Evaluator Run

/-- The name that a formal binds. -/
def Formal.name? : Formal → Option String
  | nothing => none
  | single x => some x
  | rest x => some x

theorem eq_some_of_lookup {own : Option (String × Value)} {x : String} {v : Value}
    (h : own.toList.lookup x = some v) : own = some (x, v) := by
  cases own with
  | none => cases h
  | some binding =>
      rcases binding with ⟨y, w⟩
      by_cases hx : x = y
      · simp_all
      · have hne : (x == y) = false := by simpa using hx
        simp [List.lookup_cons, hne] at h

/-- Arguments that are accepted are bound to the name of the formal and to no other. -/
theorem Formal.isSome_lookup_own {formal : Formal} {args : Value} {own : Option (String × Value)}
    (h : formal.accept args = .ok own) (x : String) :
    (own.toList.lookup x).isSome = (formal.name? == some x) := by
  have hsingle (y : String) (v : Value) : ([(y, v)].lookup x).isSome = (some y == some x) := by
    by_cases hx : x = y
    · simp [hx]
    · have hne : (x == y) = false := by simpa using hx
      simp [List.lookup_cons, hne, Ne.symm hx]
  unfold accept at h
  split at h
  · cases h
    rfl
  · cases h
  · cases h
    exact hsingle _ _
  · cases h
  · cases h
    exact hsingle _ _

/-- Whether a value is no procedure, or one of those for numbers and lists. -/
def Value.isData : Value → Bool
  | native _ p => p ∈ Pack.arithmetic.members ++ Pack.lists.members
  | v => !v.isProcedure

theorem Value.runsCode_of_isData {v : Value} (h : v.isData = true) : v.runsCode = false := by
  cases v with
  | lambda => cases h
  | native m p =>
      cases p with
      | eval => cases h
      | _ => rfl
  | _ => rfl

/-- A lambda and the arguments it is applied to. -/
structure Application where
  mark : Mark
  closure : EnvId
  formal : Formal
  body : Value
  args : Value

namespace Application

def procedure (c : Application) : Value :=
  .lambda c.mark c.closure c.formal c.body

/-- The application made by a caller and completed. -/
def complete (c : Application) (depth rounds : Nat) (caller : EnvId) : Run Value :=
  apply (eval depth rounds) c.procedure c.args caller >>= drive (eval depth rounds) rounds

/-- Whether a name is neither the formal nor captured. -/
def leaves (c : Application) (s : State) (x : String) : Bool :=
  c.formal.name? != some x && (s.lookup c.closure x).isNone

/-- The expressions in the body, outside quoted data. -/
def expressions (c : Application) (s : State) : List Value :=
  c.body.expressionsAt (c.leaves s Keyword.quote.name) .alone

/-- The names that the body mentions. -/
def names (c : Application) (s : State) : List String :=
  (c.expressions s).filterMap Value.symbol?

/-- The heads of the combinations in the body. -/
def heads (c : Application) (s : State) : List Value :=
  (c.expressions s).filterMap fun
    | .pair _ head _ => some head
    | _ => none

/-- The names that a body mentions are its formal, or captured with a value that is no procedure or
one of those for numbers and lists, or the special forms `if` and `quote`. -/
structure IsCaptured (c : Application) (s : State) : Prop where
  value : ∀ x ∈ c.names s, c.formal.name? ≠ some x →
    (s.lookup c.closure x).all Value.isData = true
  keyword : ∀ x ∈ c.names s, c.leaves s x = true →
    x = Keyword.ifForm.name ∨ x = Keyword.quote.name

instance (c : Application) (s : State) : Decidable (c.IsCaptured s) :=
  decidable_of_iff _ ⟨fun h => ⟨h.1, h.2⟩, fun h => And.intro h.value h.keyword⟩

/-- The caller does not bind the special forms that the body mentions. -/
def Spares (c : Application) (s : State) (caller : EnvId) : Prop :=
  ∀ x ∈ c.names s, c.leaves s x = true → (s.lookup caller x).isNone = true

instance (c : Application) (s : State) (caller : EnvId) : Decidable (c.Spares s caller) :=
  inferInstanceAs (Decidable (∀ x ∈ c.names s, _))

/-- The body applies only what it names, and the formal only if it is bound to something that
evaluates no expressions. -/
def AppliesNamed (c : Application) (s : State) : Prop :=
  ∀ head ∈ c.heads s, ∃ x, head.symbol? = some x ∧
    ∀ v, c.formal.accept c.args = .ok (some (x, v)) → v.runsCode = false

/-- Nothing in the arguments, in the body and in the values it mentions evaluates expressions. -/
structure IsInert (c : Application) (s : State) : Prop where
  args : c.args.isInert = true
  body : c.body.isInert = true
  captured : ∀ x ∈ c.names s, ∀ v, s.lookup c.closure x = some v → v.isInert = true

variable {c : Application} {s : State}

theorem mem_names {e : Value} {x : String} (he : e ∈ c.expressions s) (hx : e.symbol? = some x) :
    x ∈ c.names s :=
  List.mem_filterMap.mpr ⟨e, he, hx⟩

theorem mem_heads {m : Mark} {head operands : Value}
    (h : .pair m head operands ∈ c.expressions s) : head ∈ c.heads s :=
  List.mem_filterMap.mpr ⟨_, h, rfl⟩

/-- The name that a combination starts with is mentioned. -/
theorem mem_names_of_named {m m' : Mark} {x : String} {operands : Value}
    (h : .pair m (.symbol m' x) operands ∈ c.expressions s) : x ∈ c.names s :=
  mem_names (Value.head_mem_expressionsAt h) rfl

/-- Whatever budgets an application is completed within, it comes to the same. -/
theorem complete_unique {depth rounds depth' rounds' : Nat} {caller : EnvId}
    {answer answer' : Except Error Value × State}
    (h : c.complete depth rounds caller s = some answer)
    (h' : c.complete depth' rounds' caller s = some answer') : answer = answer' := by
  have hcovered {depth rounds depth' rounds' : Nat} (hdepth : depth ≤ depth')
      (hrounds : rounds ≤ rounds') :
      CoveredBy (c.complete depth rounds caller) (c.complete depth' rounds' caller) := by
    have hcovers := eval_covers hdepth hrounds
    exact (apply_covered hcovers _ _ caller).bind fun st => drive_covered hcovers hrounds st
  exact answer_unique hcovered h h'

/-- Made by any caller that spares it, the application comes to this result. -/
def ComesTo (c : Application) (s : State) (r : Except Error Value) : Prop :=
  ∀ caller, c.Spares s caller → ∃ t, (Task.application c.procedure c.args caller).Derives s r t

/-- What a name stands for in the body, if it is not left to the caller. -/
def known (c : Application) (s : State) (own : Option (String × Value)) (x : String) :
    Option Value :=
  (own.toList.lookup x).or (s.lookup c.closure x)

section Accepted

variable {own : Option (String × Value)} (haccept : c.formal.accept c.args = .ok own)

include haccept

theorem isNone_known (x : String) : (c.known s own x).isNone = c.leaves s x := by
  have hown := Formal.isSome_lookup_own haccept x
  rw [known, leaves]
  cases hlookup : own.toList.lookup x with
  | none =>
      rw [hlookup] at hown
      simp [bne, ← hown]
  | some v =>
      rw [hlookup] at hown
      simp [bne, ← hown]

/-- A name stands for what the formal is bound to, or for what was captured under it. -/
theorem eq_or_lookup_of_known {x : String} {w : Value} (h : c.known s own x = some w) :
    own = some (x, w) ∨ c.formal.name? ≠ some x ∧ s.lookup c.closure x = some w := by
  rw [known, Option.or_eq_some_iff] at h
  rcases h with hown | ⟨hnone, hclosure⟩
  · exact Or.inl (eq_some_of_lookup hown)
  · have hformal := Formal.isSome_lookup_own haccept x
    rw [hnone] at hformal
    exact Or.inr ⟨by simpa using hformal.symm, hclosure⟩

theorem known_inherited {P : Value → Prop} (hP : Value.Hereditary P) (hargs : P c.args)
    {x : String} (hcaptured : ∀ v, s.lookup c.closure x = some v → P v) {w : Value}
    (h : c.known s own x = some w) : P w := by
  rw [known, Option.or_eq_some_iff] at h
  rcases h with hown | ⟨_, hclosure⟩
  · exact hP.inherited.of_accept hargs haccept hown
  · exact hcaptured w hclosure

end Accepted

/-- The environments that the body may run over, one for each caller that spares it. -/
def arrays (c : Application) (s : State) (own : Option (String × Value)) :
    Set (Array Bindings) :=
  {a | ∃ caller, c.Spares s caller ∧
    a = s.environments.push (callBindings (s.bindings caller) (s.bindings c.closure) own)}

section Body

variable {own : Option (String × Value)} (haccept : c.formal.accept c.args = .ok own)

include haccept

/-- What the body mentions means the same whoever the caller is. -/
theorem find?_of_mem_arrays {a : Array Bindings} (ha : a ∈ c.arrays s own) {x : String}
    (hx : x ∈ c.names s) : (a.getD s.environments.size ∅).find? x = c.known s own x := by
  obtain ⟨caller, hspares, rfl⟩ := ha
  have hnew : (s.environments.push
      (callBindings (s.bindings caller) (s.bindings c.closure) own)).getD s.environments.size ∅ =
        callBindings (s.bindings caller) (s.bindings c.closure) own := by
    simp [Array.getD_eq_getD_getElem?]
  rw [hnew, find?_callBindings, ← Option.or_assoc]
  change (c.known s own x).or (s.lookup caller x) = _
  cases hknown : c.known s own x with
  | some w => rfl
  | none =>
      have hleaves : c.leaves s x = true := by
        rw [← isNone_known haccept, hknown]
        rfl
      exact Option.isNone_iff_eq_none.mp (hspares x hx hleaves)

variable {P : Value → Prop} (hP : Value.Hereditary P) (hargs : P c.args)
  (hvalues : ∀ x ∈ c.names s, ∀ v, s.lookup c.closure x = some v → P v)
  (hnamed : ∀ m m' x operands, .pair m (.symbol m' x) operands ∈ c.expressions s →
    ∀ w, c.known s own x = some w → w.runsCode = false)
  (hcomputed : ∀ m head operands, .pair m head operands ∈ c.expressions s →
    head.symbol? = none → ∀ v, P v → v.runsCode = false)

include hP hargs hvalues hnamed hcomputed

theorem settled (hcaptured : c.IsCaptured s) {e : Value} (he : e ∈ c.expressions s) :
    e.Settled (c.arrays s own) P ⟨s.environments.size⟩ (c.known s own) where
  agrees x hx _ ha := find?_of_mem_arrays haccept ha (mem_names he hx)
  value x hx w hw := known_inherited haccept hP hargs (hvalues x (mem_names he hx)) hw
  keyword x hx hknown := by
    apply hcaptured.keyword x (mem_names he hx)
    rw [← isNone_known haccept, hknown]
    rfl
  named m m' x operands heq := by
    rw [heq] at he
    exact hnamed m m' x operands he
  computed m head operands heq := by
    rw [heq] at he
    exact hcomputed m head operands he

/-- The application comes to one result, whichever caller makes it. -/
theorem derives (hsymbol : ∀ m x, P (.symbol m x)) (hcaptured : c.IsCaptured s)
    (hbody : P c.body) :
    ∃ r, c.ComesTo s r := by
  have hexpressions :
      ∀ e ∈ c.body.expressionsAt (c.known s own Keyword.quote.name).isNone .alone,
        e.Settled (c.arrays s own) P ⟨s.environments.size⟩ (c.known s own) := by
    rw [isNone_known haccept]
    exact fun e he => settled haccept hP hargs hvalues hnamed hcomputed hcaptured he
  let applying : Event := .applying c.procedure c.args
  obtain ⟨r, u, _, hderives⟩ :=
    (independent_of_settled hP hsymbol hbody).1 hexpressions (s.trace applying)
  refine ⟨r, fun caller hspares => ?_⟩
  let a := s.environments.push (callBindings (s.bindings caller) (s.bindings c.closure) own)
  have hgrown : (s.trace applying).withEnvironments a = (s.trace applying).grown
      (callBindings (s.bindings caller) (s.bindings c.closure) own) := by
    rw [State.withEnvironments, State.grown, State.environments_trace]
  have hbodyDerives := hderives a ⟨caller, hspares, rfl⟩
  rw [hgrown] at hbodyDerives
  exact ⟨u.withEnvironments a, .body haccept hbodyDerives⟩

end Body

/-- A body that applies only what it names asks nothing of the values it deals with. -/
theorem derives_of_appliesNamed {own : Option (String × Value)}
    (haccept : c.formal.accept c.args = .ok own) (hcaptured : c.IsCaptured s)
    (happlies : c.AppliesNamed s) :
    ∃ r, c.ComesTo s r := by
  refine derives haccept (P := fun _ => True) ⟨fun _ _ => trivial, by simp⟩ trivial
    (fun _ _ _ _ => trivial) ?named ?computed (fun _ _ => trivial) hcaptured trivial
  case named =>
    intro m m' x operands hexpr w hw
    obtain ⟨y, hy, hbound⟩ := happlies _ (mem_heads hexpr)
    cases hy
    rcases eq_or_lookup_of_known haccept hw with rfl | ⟨hformal, hclosure⟩
    · exact hbound w haccept
    · have hdata := hcaptured.value x (mem_names_of_named hexpr) hformal
      rw [hclosure] at hdata
      exact Value.runsCode_of_isData hdata
  case computed =>
    intro m head operands hexpr hsymbol
    obtain ⟨x, hx, -⟩ := happlies head (mem_heads hexpr)
    rw [hsymbol] at hx
    cases hx

/-- Where nothing evaluates expressions, what is applied does not either. -/
theorem derives_of_isInert {own : Option (String × Value)}
    (haccept : c.formal.accept c.args = .ok own) (hcaptured : c.IsCaptured s)
    (hinert : c.IsInert s) :
    ∃ r, c.ComesTo s r := by
  have hP := Value.isInert_hereditary
  refine derives haccept hP hinert.args hinert.captured ?named ?computed (fun _ _ => rfl) hcaptured
    hinert.body
  case named =>
    intro m m' x operands hexpr w hw
    have hvalues := hinert.captured x (mem_names_of_named hexpr)
    exact Value.runsCode_of_isInert (known_inherited haccept hP hinert.args hvalues hw)
  case computed => exact fun _ _ _ _ _ v hv => Value.runsCode_of_isInert hv

end Application

open Application in
/-- A body that has captured all it needs comes to one result, whoever calls it: for every caller
that leaves the special forms it mentions alone, the application is completed, and whatever it is
completed to is that result.  What the body applies has to be named and must not be a lambda or
`eval` that it is handed, or else nothing that evaluates expressions may be around at all. -/
theorem caller_does_not_matter {c : Application} {s : State} (hcaptured : c.IsCaptured s)
    (hhanded : c.AppliesNamed s ∨ c.IsInert s) :
    ∃ r, ∀ caller, c.Spares s caller →
      (∃ depth rounds t, c.complete depth rounds caller s = some (r, t)) ∧
      ∀ depth rounds r' t, c.complete depth rounds caller s = some (r', t) → r' = r := by
  have hcomes : ∃ r, c.ComesTo s r := by
    cases haccept : c.formal.accept c.args with
    | error cause => exact ⟨.error (.apply cause), fun caller _ => ⟨_, .ends (.rejected haccept)⟩⟩
    | ok own =>
        rcases hhanded with happlies | hinert
        · exact derives_of_appliesNamed haccept hcaptured happlies
        · exact derives_of_isInert haccept hcaptured hinert
  obtain ⟨r, hcomes⟩ := hcomes
  refine ⟨r, fun caller hspares => ?_⟩
  obtain ⟨t, hderives⟩ := hcomes caller hspares
  obtain ⟨depth, rounds, hrun⟩ := ((eval_iff_derives s t r).2 _ _ _).mpr hderives
  refine ⟨⟨depth, rounds, t, hrun⟩, fun depth' rounds' r' t' hrun' => ?_⟩
  exact (Prod.mk.inj (complete_unique hrun' hrun)).1

/-- The elements of a list put together. -/
def Value.ofElements (vs : List Value) : Value :=
  vs.foldr (.pair ⟨0⟩) (.nil ⟨0⟩)

/-- A lambda with the formal `x`, which has captured the environment 0, applied to one argument. -/
def Application.ofBody (body arg : Value) : Application :=
  ⟨⟨0⟩, ⟨0⟩, .single "x", body, .ofElements [arg]⟩

/-- Nothing but these environments. -/
def State.ofEntries (environments : List (List (String × Value))) : State :=
  { State.initial .empty with environments := (environments.map .ofList).toArray }

/-- The application of `(lambda (x) (if x (car z)))` to `#t`. -/
def Application.picking : Application :=
  .ofBody
    (.ofElements [.symbol ⟨0⟩ "if", .symbol ⟨0⟩ "x",
      .ofElements [.symbol ⟨0⟩ "car", .symbol ⟨0⟩ "z"]])
    (.boolean ⟨0⟩ true)

/-- `car` and `z` are captured.  One caller binds nothing, the other has its own of both. -/
def State.rebinding : State :=
  .ofEntries [[("car", .native ⟨0⟩ .car), ("z", .ofElements [.number ⟨0⟩ 7])], [],
    [("car", .native ⟨0⟩ .cdr), ("z", .nil ⟨0⟩)]]

open Application in
/-- The caller that has its own `car` and its own `z` comes to the captured 7 as well. -/
theorem caller_does_not_matter_rebinding :
    picking.IsCaptured .rebinding ∧ picking.AppliesNamed .rebinding ∧
    picking.Spares .rebinding ⟨1⟩ ∧ picking.Spares .rebinding ⟨2⟩ ∧
    ∃ depth rounds t,
      picking.complete depth rounds ⟨2⟩ .rebinding = some (.ok (.number ⟨0⟩ 7), t) := by
  have hcaptured : picking.IsCaptured .rebinding := by decide
  have hspares : picking.Spares .rebinding ⟨1⟩ ∧ picking.Spares .rebinding ⟨2⟩ := by decide
  have happlies : picking.AppliesNamed .rebinding := by
    have hheads : picking.heads .rebinding = [.symbol ⟨0⟩ "if", .symbol ⟨0⟩ "car"] := rfl
    have haccept : picking.formal.accept picking.args =
        .ok (some ("x", .boolean ⟨0⟩ true)) := rfl
    rw [AppliesNamed, hheads, haccept]
    simp [Value.symbol?]
  obtain ⟨r, hr⟩ := caller_does_not_matter hcaptured (.inl happlies)
  obtain ⟨-, hempty⟩ := hr ⟨1⟩ hspares.1
  obtain rfl := hempty 9 9 (.ok (.number ⟨0⟩ 7)) _ rfl
  obtain ⟨hrebound, -⟩ := hr ⟨2⟩ hspares.2
  exact ⟨hcaptured, happlies, hspares.1, hspares.2, hrebound⟩

/-- Whether the application comes to a value for either caller, and the two values are not equal. -/
def Application.differs (c : Application) (s : State) (caller other : EnvId) : Bool :=
  match c.complete 9 9 caller s, c.complete 9 9 other s with
  | some (.ok v, _), some (.ok w, _) => !v.equal w
  | _, _ => false

/-- The application of `(lambda (x) (if x 1 2))` to `#t`. -/
def Application.branching : Application :=
  .ofBody
    (.ofElements [.symbol ⟨0⟩ "if", .symbol ⟨0⟩ "x", .number ⟨0⟩ 1, .number ⟨0⟩ 2])
    (.boolean ⟨0⟩ true)

/-- Nothing is captured, one caller binds nothing, and the other uses `if` as a name for `list`. -/
def State.shadowing : State :=
  .ofEntries [[], [], [("if", .native ⟨0⟩ .list)]]

/-- The application of `(lambda (x) (x))` to `(lambda () k)`. -/
def Application.calling : Application :=
  .ofBody (.ofElements [.symbol ⟨0⟩ "x"]) (.lambda ⟨1⟩ ⟨0⟩ .nothing (.symbol ⟨0⟩ "k"))

/-- The application of `(lambda (x) ((x 'f e)))` to `eval`. -/
def Application.fetching : Application :=
  .ofBody
    (.ofElements [.ofElements [.symbol ⟨0⟩ "x",
      .ofElements [.symbol ⟨0⟩ "quote", .symbol ⟨0⟩ "f"], .symbol ⟨0⟩ "e"]])
    (.native ⟨0⟩ .eval)

/-- The callers have each their own `k`, and in the environment `e` that is captured `f` is
`(lambda () k)`. -/
def State.disagreeing : State :=
  .ofEntries [[("e", .environment ⟨0⟩ ⟨3⟩)], [("k", .number ⟨0⟩ 1)], [("k", .number ⟨0⟩ 2)],
    [("f", .lambda ⟨1⟩ ⟨4⟩ .nothing (.symbol ⟨0⟩ "k"))], []]

open Application in
/-- Callers can matter to a body that has captured all it needs: when one of them binds a special
form that it mentions, when it calls a lambda that it is handed, and when it is handed `eval`. -/
theorem callers_can_matter :
    branching.IsCaptured .shadowing ∧ branching.differs .shadowing ⟨1⟩ ⟨2⟩ ∧
    calling.IsCaptured .disagreeing ∧ calling.Spares .disagreeing ⟨1⟩ ∧
      calling.Spares .disagreeing ⟨2⟩ ∧ calling.differs .disagreeing ⟨1⟩ ⟨2⟩ ∧
    fetching.IsCaptured .disagreeing ∧ fetching.Spares .disagreeing ⟨1⟩ ∧
      fetching.Spares .disagreeing ⟨2⟩ ∧ fetching.differs .disagreeing ⟨1⟩ ⟨2⟩ := by
  decide +kernel

end TinyLisp
