import Mathlib.Algebra.Ring.Int.Defs
import Mathlib.Data.Int.Order.Basic
import Mathlib.Data.List.Chain
import Mathlib.Order.Defs.Unbundled
import TinyLisp.Proofs.Procedures.Blame
import TinyLisp.Proofs.Run

/-!
What the arithmetic procedures compute.  What each should come to is said of the numbers that it is
given, all at once; the folds, the comparisons of neighbours and the rounding division come to that.
Main statement: `arithmetic_calls`.
-/

namespace TinyLisp

/-- The numbers of a list of numbers; none if it is no list, or one of its elements is no number. -/
def Value.numbers? (args : Value) : Option (List Int) := do
  (← args.toList?).mapM number?

/-- The procedures that take numbers, and only numbers, any place in their argument list. -/
def Native.calculates : Native → Bool
  | sum => true
  | difference => true
  | product => true
  | quotient => true
  | remainder => true
  | numberEq => true
  | less => true
  | greater => true
  | lessEq => true
  | greaterEq => true
  | maximum => true
  | minimum => true
  | _ => false

/-- The numbers that a procedure has an answer for: as many as it can do with, and no division by
zero. -/
def Native.accepts : Native → List Int → Bool
  | sum, _ => true
  | product, _ => true
  | difference, ns => !ns.isEmpty
  | maximum, ns => !ns.isEmpty
  | minimum, ns => !ns.isEmpty
  | quotient, [_, m] => m != 0
  | remainder, [_, m] => m != 0
  | numberEq, ns => 2 ≤ ns.length
  | less, ns => 2 ≤ ns.length
  | greater, ns => 2 ≤ ns.length
  | lessEq, ns => 2 ≤ ns.length
  | greaterEq, ns => 2 ≤ ns.length
  | _, _ => false

/-- The relation that a comparison is about. -/
def Native.relation? : Native → Option (Int → Int → Prop)
  | numberEq => some (· = ·)
  | less => some (· < ·)
  | greater => some (· > ·)
  | lessEq => some (· ≤ ·)
  | greaterEq => some (· ≥ ·)
  | _ => none

/-- What division with rounding toward zero comes to: the rest is smaller than the divisor, and has
the sign of the dividend. -/
structure IsDivision (n m q r : Int) : Prop where
  eq : n = q * m + r
  lt : r.natAbs < m.natAbs
  sign : r = 0 ∨ r.sign = n.sign

/-- What a procedure should make of some numbers.  A comparison holds between any two of them, in
their order. -/
inductive Computes : Native → List Int → (Mark → Value) → Prop where
  | sum (ns) : Computes .sum ns (.number · ns.sum)
  | product (ns) : Computes .product ns (.number · ns.prod)
  | negation (n) : Computes .difference [n] (.number · (-n))
  | difference (n m ns) : Computes .difference (n :: m :: ns) (.number · (n - (m :: ns).sum))
  | maximum {n ns} (hmem : n ∈ ns) (hupper : ∀ m ∈ ns, m ≤ n) : Computes .maximum ns (.number · n)
  | minimum {n ns} (hmem : n ∈ ns) (hlower : ∀ m ∈ ns, m ≥ n) : Computes .minimum ns (.number · n)
  | comparison {p r ns b} (hr : p.relation? = some r) (hb : b = true ↔ ns.Pairwise r) :
      Computes p ns (.boolean · b)
  | quotient {n m q r} (h : IsDivision n m q r) : Computes .quotient [n, m] (.number · q)
  | remainder {n m q r} (h : IsDivision n m q r) : Computes .remainder [n, m] (.number · r)

namespace IsDivision

variable {n m q r : Int}

theorem tdiv_tmod (n : Int) (hm : m ≠ 0) : IsDivision n m (n.tdiv m) (n.tmod m) where
  eq := (Int.tdiv_mul_add_tmod n m).symm
  lt := by
    rw [Int.natAbs_tmod]
    exact Nat.mod_lt _ (Int.natAbs_pos.mpr hm)
  sign := by
    rw [Int.sign_tmod]
    split
    · next h => exact .inl (Int.tmod_eq_zero_of_dvd h)
    · exact .inr rfl

/-- Two rests of one division are less than a divisor apart, for they have the same sign. -/
theorem unique {q' r' : Int} (h : IsDivision n m q r) (h' : IsDivision n m q' r') :
    q = q' ∧ r = r' := by
  have hdiff : (q - q') * m = r' - r := by
    have heq := h.eq
    have heq' := h'.eq
    rw [Int.sub_mul]
    omega
  have hclose : (r' - r).natAbs < m.natAbs := by
    have hlt := h.lt
    have hlt' := h'.lt
    have hsign := h.sign
    have hsign' := h'.sign
    rcases Int.lt_trichotomy n 0 with hn | rfl | hn
    · rw [Int.sign_eq_neg_one_of_neg hn, Int.sign_eq_neg_one_iff_neg] at hsign hsign'
      omega
    · rw [Int.sign_zero, Int.sign_eq_zero_iff_zero] at hsign hsign'
      omega
    · rw [Int.sign_eq_one_of_pos hn, Int.sign_eq_one_iff_pos] at hsign hsign'
      omega
  have hzero : q - q' = 0 := by
    by_contra hne
    have hpos := Int.natAbs_pos.mpr hne
    rw [← hdiff, Int.natAbs_mul] at hclose
    exact absurd hclose (Nat.not_lt.mpr (Nat.le_mul_of_pos_left _ hpos))
  rw [hzero, Int.zero_mul] at hdiff
  omega

end IsDivision

/-- There is only one thing to make of given numbers. -/
theorem Computes.unique {p : Native} {ns : List Int} {v w : Mark → Value} (h : Computes p ns v)
    (h' : Computes p ns w) : w = v := by
  cases h with
  | comparison hr hb =>
      cases h' with
      | comparison hr' hb' =>
          obtain rfl := Option.some.inj (hr.symm.trans hr')
          rw [Bool.eq_iff_iff.mpr (hb'.trans hb.symm)]
      | _ => cases hr
  | maximum hmem hupper =>
      cases h' with
      | maximum hmem' hupper' => rw [Int.le_antisymm (hupper _ hmem') (hupper' _ hmem)]
      | comparison hr => cases hr
  | minimum hmem hlower =>
      cases h' with
      | minimum hmem' hlower' => rw [Int.le_antisymm (hlower' _ hmem) (hlower _ hmem')]
      | comparison hr => cases hr
  | quotient h =>
      cases h' with
      | quotient h' => rw [(h.unique h').1]
      | comparison hr => cases hr
  | remainder h =>
      cases h' with
      | remainder h' => rw [(h.unique h').2]
      | comparison hr => cases hr
  | _ =>
      cases h' with
      | comparison hr => cases hr
      | _ => rfl

namespace Procedures

variable {α : Type} {p : Native} {args : Value}

/-! ### Numbers as arguments -/

theorem mapM_numberArgument (p : Native) (vs : List Value) :
    (∃ ns, vs.mapM Value.number? = some ns ∧ vs.mapM (numberArgument p) = .ok ns) ∨
      vs.mapM Value.number? = none ∧ ∃ e, vs.mapM (numberArgument p) = .error e := by
  induction vs with
  | nil => exact .inl ⟨[], rfl, rfl⟩
  | cons v vs ih =>
      rw [List.mapM_cons, List.mapM_cons, numberArgument]
      cases v.number? with
      | none => exact .inr ⟨rfl, _, rfl⟩
      | some n =>
          rcases ih with ⟨ns, hsome, hok⟩ | ⟨hnone, e, herror⟩
          · exact .inl ⟨n :: ns, by rw [hsome]; rfl, by rw [hok]; rfl⟩
          · exact .inr ⟨by rw [hnone]; rfl, e, by rw [herror]; rfl⟩

/-- All arguments are looked at before anything is made of them. -/
theorem numbers_cases (p : Native) (args : Value) :
    (∃ ns, args.numbers? = some ns ∧ numbers p args = .ok ns) ∨
      args.numbers? = none ∧ ∃ e, numbers p args = .error e := by
  rw [Value.numbers?, numbers, arguments]
  cases args.toList? with
  | none => exact .inr ⟨rfl, _, rfl⟩
  | some vs => exact mapM_numberArgument p vs

/-- A computation of what a procedure is to make of its arguments, an object built of the result:
it comes to what it should where the procedure accepts the arguments, and fails elsewhere. -/
def Settles (p : Native) (args : Value) (build : α → Mark → Value) (x : Except Error α) : Prop :=
  (∃ ns a, args.numbers? = some ns ∧ p.accepts ns = true ∧ Computes p ns (build a) ∧ x = .ok a) ∨
    (∀ ns, args.numbers? = some ns → p.accepts ns = false) ∧ ∃ e, x = .error e

/-- What is made of numbers settles what is made of arguments. -/
theorem Settles.of_numbers {build : α → Mark → Value} {f : List Int → Except Error α}
    (h : ∀ ns, (p.accepts ns = true ∧ ∃ a, Computes p ns (build a) ∧ f ns = .ok a) ∨
      p.accepts ns = false ∧ ∃ e, f ns = .error e) :
    Settles p args build (numbers p args >>= f) := by
  rcases numbers_cases p args with ⟨ns, hsome, hok⟩ | ⟨hnone, e, herror⟩
  · rw [hok]
    rcases h ns with ⟨haccepts, a, ha, hf⟩ | ⟨haccepts, e, hf⟩
    · exact .inl ⟨ns, a, hsome, haccepts, ha, hf⟩
    · refine .inr ⟨fun ns' hsome' => ?_, e, hf⟩
      rwa [← Option.some.inj (hsome.symm.trans hsome')]
  · rw [herror]
    refine .inr ⟨fun ns hsome => ?_, e, rfl⟩
    rw [hnone] at hsome
    cases hsome

/-! ### Sums, products and extremes -/

theorem sum_settles (args : Value) : Settles .sum args (fun n m => .number m n) (sum args) :=
  .of_numbers fun ns => .inl ⟨rfl, ns.sum, .sum ns, by rw [List.sum_eq_foldl]; rfl⟩

theorem product_settles (args : Value) :
    Settles .product args (fun n m => .number m n) (product args) :=
  .of_numbers fun ns => .inl ⟨rfl, ns.prod, .product ns, by rw [List.prod_eq_foldl]; rfl⟩

theorem foldl_sub (n : Int) (ns : List Int) : ns.foldl (· - ·) n = n - ns.sum := by
  induction ns generalizing n with
  | nil => simp
  | cons m ns ih => rw [List.foldl_cons, ih, List.sum_cons, Int.sub_sub]

theorem difference_settles (args : Value) :
    Settles .difference args (fun n m => .number m n) (difference args) := by
  refine .of_numbers fun ns => ?_
  match ns with
  | [] => exact .inr ⟨rfl, _, rfl⟩
  | [n] => exact .inl ⟨rfl, -n, .negation n, rfl⟩
  | n :: m :: ns =>
      exact .inl ⟨rfl, _, .difference n m ns, congrArg Except.ok (foldl_sub n (m :: ns))⟩

/-- A choice of one of two numbers that both are related to. -/
structure Prefers (r : Int → Int → Prop) (pick : Int → Int → Int) : Prop where
  choice : ∀ n m, pick n m = n ∨ pick n m = m
  left : ∀ n m, r n (pick n m)
  right : ∀ n m, r m (pick n m)

/-- A choice that is repeated ends with one of the numbers, and all of them are related to it. -/
theorem Prefers.foldl {r : Int → Int → Prop} [Std.Refl r] [IsTrans Int r] {pick : Int → Int → Int}
    (h : Prefers r pick) (n : Int) (ns : List Int) :
    ns.foldl pick n ∈ n :: ns ∧ ∀ m ∈ n :: ns, r m (ns.foldl pick n) := by
  induction ns generalizing n with
  | nil => exact ⟨List.mem_singleton_self n, List.forall_mem_singleton.mpr (refl_of r n)⟩
  | cons m ns ih =>
      obtain ⟨hmem, hrelated⟩ := ih (pick n m)
      obtain ⟨hpick, hrest⟩ := List.forall_mem_cons.mp hrelated
      refine ⟨?_, List.forall_mem_cons.mpr ⟨trans_of r (h.left n m) hpick,
        List.forall_mem_cons.mpr ⟨trans_of r (h.right n m) hpick, hrest⟩⟩⟩
      rw [List.foldl_cons]
      rcases List.mem_cons.mp hmem with hfirst | hlater
      · rw [hfirst]
        rcases h.choice n m with hn | hm
        · simp [hn]
        · simp [hm]
      · exact List.mem_cons_of_mem n (List.mem_cons_of_mem m hlater)

theorem prefers_max : Prefers (· ≤ ·) max :=
  ⟨fun n m => (le_total m n).imp max_eq_left max_eq_right, le_max_left, le_max_right⟩

theorem prefers_min : Prefers (· ≥ ·) min :=
  ⟨fun n m => (le_total n m).imp min_eq_left min_eq_right, min_le_left, min_le_right⟩

theorem extremum_settles {r : Int → Int → Prop} [Std.Refl r] [IsTrans Int r]
    {pick : Int → Int → Int} (h : Prefers r pick) (haccepts : ∀ ns, p.accepts ns = !ns.isEmpty)
    (hextremum : ∀ {n ns}, n ∈ ns → (∀ m ∈ ns, r m n) → Computes p ns (.number · n)) :
    Settles p args (fun n m => .number m n) (extremum p pick args) := by
  refine .of_numbers fun ns => ?_
  rw [haccepts]
  cases ns with
  | nil => exact .inr ⟨rfl, _, rfl⟩
  | cons n ns => exact .inl ⟨rfl, _, hextremum (h.foldl n ns).1 (h.foldl n ns).2, rfl⟩

/-! ### Comparisons -/

/-- A transitive relation that holds between neighbours holds between any two. -/
theorem chain_iff_pairwise {test : Int → Int → Bool} {r : Int → Int → Prop} [IsTrans Int r]
    (htest : ∀ n m, test n m = true ↔ r n m) (ns : List Int) :
    chain test ns = true ↔ ns.Pairwise r := by
  rw [← List.isChain_iff_pairwise]
  match ns with
  | [] => simp [chain]
  | [n] => simp [chain]
  | n :: m :: ns =>
      rw [chain, Bool.and_eq_true, htest, List.isChain_cons_cons, List.isChain_iff_pairwise,
        chain_iff_pairwise htest (m :: ns)]

theorem comparison_settles {test : Int → Int → Bool} {r : Int → Int → Prop} [IsTrans Int r]
    (htest : ∀ n m, test n m = true ↔ r n m)
    (haccepts : ∀ ns, p.accepts ns = decide (2 ≤ ns.length)) (hr : p.relation? = some r) :
    Settles p args (fun b m => .boolean m b) (comparison p test args) := by
  refine .of_numbers fun ns => ?_
  rw [haccepts]
  by_cases hfew : ns.length < 2
  · rw [if_pos hfew]
    exact .inr ⟨decide_eq_false (Nat.not_le.mpr hfew), _, rfl⟩
  · rw [if_neg hfew]
    exact .inl ⟨decide_eq_true (Nat.not_lt.mp hfew), _,
      .comparison hr (chain_iff_pairwise htest ns), rfl⟩

/-! ### Division -/

theorem two_cases (p : Native) (args : Value) :
    (∃ v w, args.toList? = some [v, w] ∧ two p args = .ok (v, w)) ∨
      (∀ v w, args.toList? ≠ some [v, w]) ∧ ∃ e, two p args = .error e := by
  rw [two, exactly, arguments]
  cases args.toList? with
  | none => exact .inr ⟨nofun, _, rfl⟩
  | some vs =>
      match vs with
      | [] => exact .inr ⟨nofun, _, rfl⟩
      | [v] => exact .inr ⟨nofun, _, rfl⟩
      | [v, w] => exact .inl ⟨v, w, rfl, rfl⟩
      | v :: w :: u :: vs => exact .inr ⟨nofun, _, rfl⟩

theorem numbers?_eq_pair_iff {n m : Int} :
    args.numbers? = some [n, m] ↔
      ∃ v w, args.toList? = some [v, w] ∧ v.number? = some n ∧ w.number? = some m := by
  rw [Value.numbers?]
  cases args.toList? with
  | none => simp
  | some vs =>
      match vs with
      | [] => simp
      | [v] => simp [Option.bind_eq_some_iff]
      | [v, w] => simp [Option.bind_eq_some_iff]
      | v :: w :: u :: vs => simp [Option.bind_eq_some_iff]

/-- A division looks at its arguments one after the other, and at the divisor at last. -/
theorem division_cases (p : Native) (op : Int → Int → Int) (args : Value) :
    (∃ n m, args.numbers? = some [n, m] ∧ division p op args =
        if m = 0 then .error (.native p .divisionByZero) else .ok (op n m)) ∨
      (∀ n m, args.numbers? ≠ some [n, m]) ∧ ∃ e, division p op args = .error e := by
  rcases two_cases p args with ⟨v, w, hlist, hok⟩ | ⟨hlist, e, herror⟩
  · have hnumbers (n m : Int) :
        args.numbers? = some [n, m] ↔ v.number? = some n ∧ w.number? = some m := by
      simp [numbers?_eq_pair_iff, hlist]
    have hdivision : division p op args = (do
        let n ← numberArgument p v
        let m ← numberArgument p w
        if m = 0 then .error (.native p .divisionByZero) else .ok (op n m)) := by
      rw [division, hok]
      rfl
    rw [hdivision, numberArgument, numberArgument]
    simp only [ne_eq, hnumbers]
    cases v.number? with
    | none => exact .inr ⟨nofun, _, rfl⟩
    | some n =>
        cases w.number? with
        | none => exact .inr ⟨nofun, _, rfl⟩
        | some m => exact .inl ⟨n, m, ⟨rfl, rfl⟩, rfl⟩
  · refine .inr ⟨fun n m hnm => ?_, e, by rw [division, herror]; rfl⟩
    obtain ⟨v, w, hlist', -⟩ := numbers?_eq_pair_iff.mp hnm
    exact hlist v w hlist'

theorem division_settles {op : Int → Int → Int}
    (haccepts : ∀ ns, p.accepts ns = true ↔ ∃ n m, ns = [n, m] ∧ m ≠ 0)
    (hop : ∀ {n m}, m ≠ 0 → Computes p [n, m] (.number · (op n m))) :
    Settles p args (fun n m => .number m n) (division p op args) := by
  have hrefuses : (∀ n m, args.numbers? = some [n, m] → m = 0) →
      ∀ ns, args.numbers? = some ns → p.accepts ns = false := by
    intro hzero ns hns
    refine Bool.eq_false_iff.mpr fun hns' => ?_
    obtain ⟨n, m, rfl, hm⟩ := (haccepts ns).mp hns'
    exact hm (hzero n m hns)
  rcases division_cases p op args with ⟨n, m, hnm, heq⟩ | ⟨hnumbers, e, herror⟩
  · rw [heq]
    by_cases hm : m = 0
    · rw [if_pos hm]
      refine .inr ⟨hrefuses fun n' m' hnm' => ?_, _, rfl⟩
      obtain ⟨rfl, rfl⟩ : n = n' ∧ m = m' := by simpa [hnm] using hnm'
      exact hm
    · rw [if_neg hm]
      exact .inl ⟨[n, m], _, hnm, (haccepts _).mpr ⟨n, m, rfl, hm⟩, hop hm, rfl⟩
  · exact .inr ⟨hrefuses fun n m hnm => absurd hnm (hnumbers n m), e, herror⟩

theorem accepts_division_iff (hp : p = .quotient ∨ p = .remainder) (ns : List Int) :
    p.accepts ns = true ↔ ∃ n m, ns = [n, m] ∧ m ≠ 0 := by
  rcases hp with rfl | rfl
  all_goals
    match ns with
    | [] | [_] | [_, _] | _ :: _ :: _ :: _ => simp [Native.accepts]

/-! ### Calls -/

/-- What a call answers whose computation is settled. -/
theorem Settles.call {build : α → Mark → Value} {x : Except Error α} (h : Settles p args build x)
    (hports : p.dealsWithPorts = false)
    (hcall : call p args = answering (do let a ← ofExcept x; State.make (build a))) (s : State) :
    (∃ ns v, args.numbers? = some ns ∧ p.accepts ns = true ∧ Computes p ns v ∧
        (∀ w, Computes p ns w → w = v) ∧
        call p args s = (.ok (.value (v ⟨s.nextMark⟩)), s.marked)) ∨
      (∀ ns, args.numbers? = some ns → p.accepts ns = false) ∧
        ∃ cause, call p args s = (.error (.native p cause), s) := by
  rcases h with ⟨ns, a, hns, haccepts, hcomputes, rfl⟩ | ⟨hrefuses, e, rfl⟩
  · refine .inl ⟨ns, build a, hns, haccepts, hcomputes, fun w => hcomputes.unique, ?_⟩
    rw [hcall]
    rfl
  · have herror : Procedures.call p args s = (.error e, s) := by rw [hcall]; rfl
    obtain ⟨cause, rfl, -⟩ := call_faults hports args s e (congrArg Prod.fst herror)
    exact .inr ⟨hrefuses, cause, herror⟩

end Procedures

open Procedures in
/-- A procedure on numbers answers with what is to be made of its arguments, a new object, wherever
it accepts them; everywhere else it fails in its own name and does nothing. -/
theorem arithmetic_calls {p : Native} (hp : p.calculates = true) (args : Value) (s : State) :
    (∃ ns v, args.numbers? = some ns ∧ p.accepts ns = true ∧ Computes p ns v ∧
        (∀ w, Computes p ns w → w = v) ∧
        call p args s = (.ok (.value (v ⟨s.nextMark⟩)), s.marked)) ∨
      (∀ ns, args.numbers? = some ns → p.accepts ns = false) ∧
        ∃ cause, call p args s = (.error (.native p cause), s) := by
  cases p with
  | sum => exact (sum_settles args).call rfl rfl s
  | product => exact (product_settles args).call rfl rfl s
  | difference => exact (difference_settles args).call rfl rfl s
  | maximum => exact (extremum_settles prefers_max (fun _ => rfl) .maximum).call rfl rfl s
  | minimum => exact (extremum_settles prefers_min (fun _ => rfl) .minimum).call rfl rfl s
  | numberEq =>
      exact (comparison_settles (r := (· = ·)) (fun _ _ => beq_iff_eq) (fun _ => rfl) rfl).call
        rfl rfl s
  | less | greater | lessEq | greaterEq =>
      exact (comparison_settles (fun _ _ => decide_eq_true_iff) (fun _ => rfl) rfl).call rfl rfl s
  | quotient =>
      exact (division_settles (accepts_division_iff (.inl rfl)) fun hm =>
        .quotient (.tdiv_tmod _ hm)).call rfl rfl s
  | remainder =>
      exact (division_settles (accepts_division_iff (.inr rfl)) fun hm =>
        .remainder (.tdiv_tmod _ hm)).call rfl rfl s
  | _ => cases hp

/-- The rest has the sign of the dividend. -/
theorem arithmetic_calls_remainder :
    let args := Value.pair ⟨3⟩ (.number ⟨2⟩ (-7)) (.pair ⟨1⟩ (.number ⟨0⟩ 2) (.nil ⟨4⟩))
    let s := { State.initial .empty with nextMark := 5 }
    Procedures.call .remainder args s = (.ok (.value (.number ⟨5⟩ (-1))), s.marked) := by
  intro args s
  have hargs : args.numbers? = some [-7, 2] := by rfl
  rcases arithmetic_calls (p := .remainder) rfl args s with
    ⟨ns, v, hns, -, -, hunique, hcall⟩ | ⟨hrefused, -⟩
  · obtain rfl : [-7, 2] = ns := Option.some.inj (hargs.symm.trans hns)
    have hdivision : IsDivision (-7) 2 (-3) (-1) := ⟨by decide, by decide, by decide⟩
    rw [hcall, ← hunique _ (.remainder hdivision)]
  · exact absurd (hrefused _ hargs) (by decide)

end TinyLisp
