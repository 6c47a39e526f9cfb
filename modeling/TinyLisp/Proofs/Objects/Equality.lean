import TinyLisp.Equality

/-!
How the relations on values nest.  Each of `eqv` and `equal` forgets some marks and compares what is
left, so both are equivalences, and what is equal after less is forgotten is equal after more is.
Main statement: `equality_predicates_nest`.
-/

namespace TinyLisp

namespace Value

variable {a b : Value}

/-! ### What is compared -/

/-- What `eqv` compares: an object that stands for something, without its mark, and any other object
as it is. -/
def standsFor : Value → Value
  | number _ n => number ⟨0⟩ n
  | symbol _ name => symbol ⟨0⟩ name
  | boolean _ b => boolean ⟨0⟩ b
  | nil _ => nil ⟨0⟩
  | native _ procedure => native ⟨0⟩ procedure
  | environment _ env => environment ⟨0⟩ env
  | unspecified _ => unspecified ⟨0⟩
  | eof _ => eof ⟨0⟩
  | v => v

/-- What `equal` compares: pairs and strings lose their marks too, at any depth. -/
def shape : Value → Value
  | pair _ first rest => pair ⟨0⟩ first.shape rest.shape
  | string _ text => string ⟨0⟩ text
  | v => v.standsFor

theorem eqv_iff : a.eqv b = true ↔ a.standsFor = b.standsFor := by
  cases a <;> cases b <;> simp [eqv, standsFor]

/-- By induction on one of the values; where not both are pairs, `equal` is settled at once. -/
theorem equal_iff : a.equal b = true ↔ a.shape = b.shape := by
  induction a generalizing b with
  | pair m first rest ihFirst ihRest =>
      cases b <;> simp [equal, eqv, shape, standsFor, ihFirst, ihRest]
  | _ => cases b <;> simp [equal, eqv_iff, shape, standsFor]

theorem shape_standsFor (v : Value) : v.standsFor.shape = v.shape := by
  cases v <;> rfl

theorem eqv_equivalence : Equivalence fun a b : Value => a.eqv b = true where
  refl := eqv_refl
  symm h := eqv_iff.mpr (eqv_iff.mp h).symm
  trans h h' := eqv_iff.mpr ((eqv_iff.mp h).trans (eqv_iff.mp h'))

theorem equal_equivalence : Equivalence fun a b : Value => a.equal b = true where
  refl := equal_refl
  symm h := equal_iff.mpr (equal_iff.mp h).symm
  trans h h' := equal_iff.mpr ((equal_iff.mp h).trans (equal_iff.mp h'))

theorem equal_of_eqv (h : a.eqv b = true) : a.equal b = true := by
  rw [equal_iff, ← shape_standsFor a, ← shape_standsFor b, eqv_iff.mp h]

/-- What stands for the same has the same contents. -/
theorem isAlike_of_eqv (h : a.eqv b = true) : a.isAlike b = true := by
  cases a <;> cases b <;> simp_all [eqv, isAlike, isAlike_refl]

theorem isAlike_of_equal (h : a.equal b = true) : a.isAlike b = true := by
  induction a generalizing b with
  | pair m first rest ihFirst ihRest =>
      cases b with
      | pair m' first' rest' =>
          simp only [equal, isAlike, Bool.and_eq_true] at h ⊢
          exact ⟨ihFirst h.1, ihRest h.2⟩
      | _ => exact isAlike_of_eqv h
  | string m text =>
      cases b with
      | string m' text' => exact h
      | _ => exact isAlike_of_eqv h
  | _ => exact isAlike_of_eqv h

/-! ### In lock step -/

/-- A walk down two chains of pairs in lock step: the firsts that it meets, and the two values that
it stops at because they are not both pairs. -/
def alongside : Value → Value → List (Value × Value) × Value × Value
  | pair _ first rest, pair _ first' rest' =>
      let walk := rest.alongside rest'
      ((first, first') :: walk.1, walk.2)
  | a, b => ([], a, b)

/-- How two values compare where such a walk stops. -/
def matchesEnd : Value → Value → Bool
  | string _ s, string _ t => s == t
  | a, b => a.eqv b

theorem equal_of_isPair_eq_false (h : a.isPair = false ∨ b.isPair = false) :
    a.equal b = a.matchesEnd b := by
  cases a <;> cases b <;> simp_all [equal, matchesEnd, isPair]

/-- Two values are equal when the firsts are that a walk meets, and the ends match. -/
theorem equal_eq_alongside (a b : Value) :
    a.equal b = ((a.alongside b).1.all (fun firsts => firsts.1.equal firsts.2) &&
      (a.alongside b).2.1.matchesEnd (a.alongside b).2.2) := by
  induction a generalizing b with
  | pair m first rest _ ihRest =>
      cases b with
      | pair m' first' rest' =>
          simp only [equal, alongside, List.all_cons, Bool.and_assoc, ihRest rest']
      | _ => rfl
  | _ => cases b <;> rfl

theorem equal_eq_false_of_isPair (ha : a.isPair = true) (hb : b.isPair = false) :
    a.equal b = false := by
  rw [Bool.eq_false_iff, ne_eq, equal_iff]
  cases a <;> cases b <;> simp_all [shape, standsFor, isPair]

end Value

open Value in
/-- `eqv` and `equal` are equivalences; the same object is `eqv` to itself, what is `eqv` is equal,
and what is equal has the same contents.  Walking down two chains of pairs in lock step comes to the
same as comparing firsts and rests: pairs are equal when both of their halves are, no pair is equal
to anything else, and of the other values only strings are compared by their text. -/
theorem equality_predicates_nest :
    (Equivalence fun a b : Value => a.eqv b = true) ∧
    (Equivalence fun a b : Value => a.equal b = true) ∧
    (∀ a b : Value, (a.isSame b = true → a.eqv b = true) ∧ (a.eqv b = true → a.equal b = true) ∧
      (a.equal b = true → a.isAlike b = true)) ∧
    (∀ a b : Value, a.equal b =
      ((a.alongside b).1.all (fun firsts => firsts.1.equal firsts.2) &&
        (a.alongside b).2.1.matchesEnd (a.alongside b).2.2)) ∧
    (∀ m m' a b c d, (pair m a b).equal (pair m' c d) = true ↔
      a.equal c = true ∧ b.equal d = true) ∧
    (∀ a b : Value, a.isPair = true → b.isPair = false → a.equal b = false ∧ b.equal a = false) ∧
    ∀ a b : Value, a.isPair = false → b.isPair = false →
      (∀ s t, a.string? = some s → b.string? = some t → (a.equal b = true ↔ s = t)) ∧
      (a.string? = none ∨ b.string? = none → a.equal b = a.eqv b) := by
  refine ⟨eqv_equivalence, equal_equivalence, fun a b => ⟨eqv_of_isSame, equal_of_eqv,
    isAlike_of_equal⟩, equal_eq_alongside, fun m m' a b c d => ?_, fun a b ha hb => ?_,
    fun a b ha hb => ⟨fun s t hs ht => ?_, fun hstring => ?_⟩⟩
  · rw [equal, Bool.and_eq_true]
  · have hab := equal_eq_false_of_isPair ha hb
    refine ⟨hab, ?_⟩
    rw [Bool.eq_false_iff] at hab ⊢
    exact fun hba => hab (equal_equivalence.symm hba)
  · cases a <;> cases hs
    cases b <;> cases ht
    exact beq_iff_eq
  · rw [equal_of_isPair_eq_false (.inl ha)]
    cases a <;> cases b <;> simp_all [matchesEnd, string?]

/-- The list `("a" (1) . b)`, made of objects with marks from `i` on. -/
def listFrom (i : Nat) : Value :=
  .pair ⟨i⟩ (.string ⟨i + 1⟩ "a")
    (.pair ⟨i + 2⟩ (.pair ⟨i + 3⟩ (.number ⟨i + 4⟩ 1) (.nil ⟨i + 5⟩)) (.symbol ⟨i + 6⟩ "b"))

/-- Made twice, the list is not `eqv` to itself, but equal to itself in either order, and has the
same contents. -/
theorem equality_predicates_nest_made_twice :
    (listFrom 0).eqv (listFrom 7) = false ∧ (listFrom 0).equal (listFrom 7) = true ∧
      (listFrom 7).equal (listFrom 0) = true ∧ (listFrom 0).isAlike (listFrom 7) = true ∧
      (listFrom 0).equal (.nil ⟨0⟩) = false := by
  have hequal : (listFrom 0).equal (listFrom 7) = true := by decide
  obtain ⟨_, hequivalence, hnest, _, _, hpair, _⟩ := equality_predicates_nest
  exact ⟨by decide, hequal, hequivalence.symm hequal, (hnest _ _).2.2 hequal,
    (hpair (listFrom 0) (.nil ⟨0⟩) rfl rfl).1⟩

end TinyLisp
