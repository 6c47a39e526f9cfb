import Mathlib.Data.List.Forall2
import TinyLisp.Proofs.Procedures.Ports

/-!
What the list procedures compute.  A proper list is a chain of pairs in front of nil, and `append`
puts such chains in front of its last argument, whatever that is.  Main statement: `list_calls`,
what `append`, `length` and `reverse` come to on any arguments, and the laws that tie them to each
other.
-/

namespace TinyLisp

namespace Value

/-- A chain of pairs in front of an object: `items` are the firsts along it, and the rest of its
last pair is that very object. -/
inductive Prepends : List Value → Value → Value → Prop where
  | nil (tail) : Prepends [] tail tail
  | cons (m first) {items tail rest} (h : Prepends items tail rest) :
      Prepends (first :: items) tail (.pair m first rest)

/-- A proper list of some items. -/
def Lists (v : Value) (items : List Value) : Prop :=
  ∃ m, Prepends items (.nil m) v

/-- A proper list, whatever its items. -/
def IsProper (v : Value) : Prop :=
  ∃ items, v.Lists items

variable {v w tail tail' : Value} {items more : List Value}

/-- Where a chain is in front of a list, its items come before those of the list. -/
theorem Prepends.toList? (h : Prepends items tail v) :
    v.toList? = tail.toList?.map (items ++ ·) := by
  induction h with
  | nil tail => simp
  | @cons m first items tail rest _ ih =>
      have hpair : (pair m first rest).toList? = rest.toList?.map (first :: ·) := by
        cases hlist : rest.isList <;> simp [Value.toList?, hlist]
      rw [hpair, ih, Option.map_map]
      rfl

theorem lists_iff : v.Lists items ↔ v.toList? = some items := by
  constructor
  · rintro ⟨m, h⟩
    rw [h.toList?]
    exact congrArg some (List.append_nil items)
  · rw [toList?_eq_some_iff]
    rintro ⟨hlist, rfl⟩
    induction v with
    | pair m first rest _ ih =>
        obtain ⟨n, h⟩ := ih hlist
        exact ⟨n, .cons m first h⟩
    | nil m => exact ⟨m, .nil _⟩
    | _ => cases hlist

theorem isProper_iff : v.IsProper ↔ v.isList = true := by
  simp only [IsProper, lists_iff, toList?_eq_some_iff]
  exact ⟨fun ⟨_, h, _⟩ => h, fun h => ⟨_, h, rfl⟩⟩

theorem not_isProper_iff : ¬ v.IsProper ↔ v.toList? = none := by
  rw [isProper_iff, toList?_eq_none_iff, Bool.not_eq_true]

theorem Prepends.lists (h : Prepends items tail v) (htail : tail.Lists more) :
    v.Lists (items ++ more) := by
  rw [lists_iff] at htail ⊢
  rw [h.toList?, htail]
  rfl

/-- Chains of the same objects are alike where what they are in front of is. -/
theorem Prepends.isAlike (h : Prepends items tail v) (h' : Prepends items tail' w)
    (htail : tail.isAlike tail' = true) : v.isAlike w = true := by
  induction h generalizing w with
  | nil =>
      cases h'
      exact htail
  | cons m first _ ih =>
      cases h' with
      | cons m' _ h' => rw [Value.isAlike, isAlike_refl, ih h' htail, Bool.and_self]

end Value

namespace State

open Value

variable (vs : List Value) (tail : Value) (s : State)

/-- The state after so many objects were made. -/
def afterMaking (n : Nat) : State :=
  { s with nextMark := s.nextMark + n }

/-- The pairs that are made are a chain in front of the tail that was given. -/
theorem makeListWithTail_prepends :
    Prepends vs tail (makeListWithTail vs tail s).1 ∧
      (makeListWithTail vs tail s).2 = s.afterMaking vs.length := by
  induction vs with
  | nil => exact ⟨.nil tail, rfl⟩
  | cons v vs ih =>
      obtain ⟨hchain, hstate⟩ := ih
      refine ⟨.cons _ v hchain, ?_⟩
      change (makeListWithTail vs tail s).2.marked = _
      rw [hstate]
      rfl

theorem makeList_lists :
    (makeList vs s).1.Lists vs ∧ (makeList vs s).2 = s.afterMaking (vs.length + 1) := by
  obtain ⟨hchain, hstate⟩ := makeListWithTail_prepends vs (.nil ⟨s.nextMark⟩) s.marked
  refine ⟨⟨_, hchain⟩, ?_⟩
  change (makeListWithTail vs (.nil ⟨s.nextMark⟩) s.marked).2 = _
  rw [hstate, afterMaking, afterMaking, marked]
  simp only [Nat.add_assoc, Nat.add_comm 1]

end State

namespace Procedures

open Value

variable {p : Native} {args l t v : Value} {ls items before after : List Value}
  {parts : List (List Value)}

/-! ### One argument -/

theorem listArgument_of_lists (h : v.Lists items) : listArgument p v = .ok items := by
  rw [listArgument, lists_iff.mp h]

theorem listArgument_of_not_proper (h : ¬ v.IsProper) :
    listArgument p v = .error (.native p (.notList v.text)) := by
  rw [listArgument, not_isProper_iff.mp h]

theorem one_of_lists (h : args.Lists [v]) : one p args = .ok v :=
  one_of_toList? (lists_iff.mp h)

theorem call_length (h : args.Lists [v]) (hv : v.Lists items) (s : State) :
    call .length args s = (.ok (.value (.number ⟨s.nextMark⟩ items.length)), s.afterMaking 1) := by
  have hlength : length args = .ok (items.length : Int) := by
    rw [length, one_of_lists h]
    change (listArgument .length v >>= _) = _
    rw [listArgument_of_lists hv]
    rfl
  rw [call, hlength]
  rfl

theorem call_length_refused (h : args.Lists [v]) (hv : ¬ v.IsProper) (s : State) :
    call .length args s = (.error (.native .length (.notList v.text)), s) := by
  have hlength : length args = .error (.native .length (.notList v.text)) := by
    rw [length, one_of_lists h]
    change (listArgument .length v >>= _) = _
    rw [listArgument_of_not_proper hv]
    rfl
  rw [call, hlength]
  rfl

theorem call_reverse (h : args.Lists [v]) (hv : v.Lists items) (s : State) :
    ∃ w, w.Lists items.reverse ∧
      call .reverse args s = (.ok (.value w), s.afterMaking (items.length + 1)) := by
  obtain ⟨hlists, hstate⟩ := s.makeList_lists items.reverse
  rw [List.length_reverse] at hstate
  refine ⟨_, hlists, ?_⟩
  rw [← hstate, call, reverse, one_of_lists h]
  change answering (ofExcept (listArgument .reverse v) >>= _) s = _
  rw [listArgument_of_lists hv]
  rfl

theorem call_reverse_refused (h : args.Lists [v]) (hv : ¬ v.IsProper) (s : State) :
    call .reverse args s = (.error (.native .reverse (.notList v.text)), s) := by
  rw [call, reverse, one_of_lists h]
  change answering (ofExcept (listArgument .reverse v) >>= _) s = _
  rw [listArgument_of_not_proper hv]
  rfl

theorem call_isList (h : args.Lists [v]) (s : State) :
    call .isList args s = (.ok (.value (.boolean ⟨s.nextMark⟩ v.isList)), s.afterMaking 1) := by
  rw [call, makeTest, one_of_lists h]
  rfl

/-! ### Several arguments -/

theorem concatenated_of_lists (h : List.Forall₂ Lists ls parts) :
    concatenated p ls = .ok parts.flatten := by
  induction h with
  | nil => rfl
  | @cons l items ls parts hl _ ih =>
      rw [concatenated, ih]
      change (listArgument p l >>= _) = _
      rw [listArgument_of_lists hl]
      rfl

theorem exists_parts (h : ∀ l ∈ ls, l.IsProper) : ∃ parts, List.Forall₂ Lists ls parts := by
  induction ls with
  | nil => exact ⟨[], .nil⟩
  | cons l ls ih =>
      obtain ⟨⟨items, hl⟩, hls⟩ := List.forall_mem_cons.mp h
      obtain ⟨parts, hparts⟩ := ih hls
      exact ⟨items :: parts, .cons hl hparts⟩

/-- Of the arguments that are no lists, the last one is complained about. -/
theorem concatenated_refused (hl : ¬ l.IsProper) (hafter : ∀ a ∈ after, a.IsProper) :
    concatenated p (before ++ l :: after) = .error (.native p (.notList l.text)) := by
  induction before with
  | nil =>
      obtain ⟨parts, hparts⟩ := exists_parts hafter
      rw [List.nil_append, concatenated, concatenated_of_lists hparts]
      change (listArgument p l >>= _) = _
      rw [listArgument_of_not_proper hl]
      rfl
  | cons b before ih =>
      rw [List.cons_append, concatenated, ih]
      rfl

theorem exists_last_not_proper (h : ¬ ∀ l ∈ ls, l.IsProper) :
    ∃ before l after, ls = before ++ l :: after ∧ ¬ l.IsProper ∧ ∀ a ∈ after, a.IsProper := by
  induction ls with
  | nil => exact absurd nofun h
  | cons l ls ih =>
      by_cases hls : ∀ a ∈ ls, a.IsProper
      · exact ⟨[], l, ls, rfl, fun hl => h (List.forall_mem_cons.mpr ⟨hl, hls⟩), hls⟩
      · obtain ⟨before, l', after, rfl, hlast⟩ := ih hls
        exact ⟨l :: before, l', after, rfl, hlast⟩

theorem append_of_arguments (h : args.Lists (ls ++ [t])) :
    append args = (do
      let items ← ofExcept (concatenated .append ls)
      State.makeListWithTail items t) := by
  rw [append, arguments_eq_ok_iff.mpr (lists_iff.mp h)]
  change ((ofExcept (concatenated .append (ls ++ [t]).dropLast) : Action _) >>= _) = _
  rw [List.dropLast_concat, List.getLast?_concat]

theorem call_append (h : args.Lists (ls ++ [t])) (hparts : List.Forall₂ Lists ls parts)
    (s : State) :
    ∃ v, Prepends parts.flatten t v ∧
      call .append args s = (.ok (.value v), s.afterMaking parts.flatten.length) := by
  obtain ⟨hchain, hstate⟩ := s.makeListWithTail_prepends parts.flatten t
  refine ⟨_, hchain, ?_⟩
  rw [← hstate, call, append_of_arguments h, concatenated_of_lists hparts]
  rfl

theorem call_append_refused (h : args.Lists (before ++ l :: after ++ [t])) (hl : ¬ l.IsProper)
    (hafter : ∀ a ∈ after, a.IsProper) (s : State) :
    call .append args s = (.error (.native .append (.notList l.text)), s) := by
  rw [call, append_of_arguments h, concatenated_refused hl hafter]
  rfl

theorem call_append_iff (h : args.Lists (ls ++ [t])) (s : State) :
    (∃ a u, call .append args s = (.ok a, u)) ↔ ∀ l ∈ ls, l.IsProper := by
  constructor
  · rintro ⟨a, u, hcall⟩
    by_contra hls
    obtain ⟨before, l, after, rfl, hl, hafter⟩ := exists_last_not_proper hls
    rw [call_append_refused h hl hafter] at hcall
    cases hcall
  · intro hls
    obtain ⟨parts, hparts⟩ := exists_parts hls
    obtain ⟨v, _, hcall⟩ := call_append h hparts s
    exact ⟨_, _, hcall⟩

theorem call_append_nothing (h : args.Lists []) (s : State) :
    call .append args s = (.ok (.value (.nil ⟨s.nextMark⟩)), s.afterMaking 1) := by
  rw [call, append, arguments_eq_ok_iff.mpr (lists_iff.mp h)]
  rfl

theorem call_append_improper (h : ¬ args.IsProper) (s : State) :
    call .append args s = (.error (.native .append (.improperList args.text)), s) := by
  rw [call, append, arguments, not_isProper_iff.mp h]
  rfl

/-! ### Calls one after the other -/

/-- Called with the arguments `vs`, in whatever list and state, a procedure answers with a value
such that `Q`. -/
def Fulfils (p : Native) (vs : List Value) (Q : Value → Prop) : Prop :=
  ∀ args s, args.Lists vs → ∃ v t, call p args s = (.ok (.value v), t) ∧ Q v

variable {Q : Value → Prop} {xs ys : Value} {more : List Value}

theorem fulfils_length (hv : v.Lists items)
    (hQ : ∀ n, n.number? = some (items.length : Int) → Q n) : Fulfils .length [v] Q :=
  fun _ s h => ⟨_, _, call_length h hv s, hQ _ rfl⟩

theorem fulfils_reverse (hv : v.Lists items) (hQ : ∀ w, w.Lists items.reverse → Q w) :
    Fulfils .reverse [v] Q := by
  intro args s h
  obtain ⟨w, hw, hcall⟩ := call_reverse h hv s
  exact ⟨w, _, hcall, hQ w hw⟩

theorem fulfils_append (hxs : xs.Lists items) (hys : ys.Lists more)
    (hQ : ∀ zs, zs.Lists (items ++ more) → Q zs) : Fulfils .append [xs, ys] Q := by
  intro args s h
  have hargs : args.Lists ([xs] ++ [ys]) := h
  obtain ⟨zs, hchain, hcall⟩ := call_append hargs (.cons hxs .nil) s
  rw [List.flatten_singleton] at hchain
  exact ⟨zs, _, hcall, hQ zs (hchain.lists hys)⟩

theorem call_length_iff (h : args.Lists [v]) (s : State) :
    (∃ a u, call .length args s = (.ok a, u)) ↔ v.IsProper := by
  constructor
  · rintro ⟨a, u, hcall⟩
    by_contra hv
    rw [call_length_refused h hv] at hcall
    cases hcall
  · rintro ⟨items, hv⟩
    exact ⟨_, _, call_length h hv s⟩

theorem call_reverse_iff (h : args.Lists [v]) (s : State) :
    (∃ a u, call .reverse args s = (.ok a, u)) ↔ v.IsProper := by
  constructor
  · rintro ⟨a, u, hcall⟩
    by_contra hv
    rw [call_reverse_refused h hv] at hcall
    cases hcall
  · rintro ⟨items, hv⟩
    obtain ⟨w, _, hcall⟩ := call_reverse h hv s
    exact ⟨_, _, hcall⟩

theorem call_isList_iff (h : args.Lists [v]) (s : State) :
    (∃ m u, call .isList args s = (.ok (.value (.boolean m true)), u)) ↔ v.IsProper := by
  rw [isProper_iff, call_isList h]
  constructor
  · rintro ⟨m, u, hcall⟩
    cases hlist : v.isList with
    | false =>
        rw [hlist] at hcall
        cases hcall
    | true => rfl
  · intro hlist
    exact ⟨_, _, by rw [hlist]⟩

end Procedures

open Procedures Value in
/-- Given arguments of which the last may be anything, `append` answers exactly when the others are
proper lists, with their items in front of that last object itself; if not, it complains about the
last of them that is none.  Given one argument, `length` and `reverse` answer exactly when `list?`
says that it is a proper list, with the number of its items and with its items in reverse.  So the
length of lists put together is the sum of theirs, a list that is reversed twice has its items in
order, and putting together may be done before or after reversing.  The items of a list that is made
of some items are these, and a list that is made of the items of a proper list is alike to it. -/
theorem list_calls :
    (∀ args ls t s, args.Lists (ls ++ [t]) →
      ((∃ a u, call .append args s = (.ok a, u)) ↔ ∀ l ∈ ls, l.IsProper) ∧
      (∀ parts, List.Forall₂ Lists ls parts → ∃ v, Prepends parts.flatten t v ∧
        call .append args s = (.ok (.value v), s.afterMaking parts.flatten.length)) ∧
      ((¬ ∀ l ∈ ls, l.IsProper) → ∃ before l after, ls = before ++ l :: after ∧ ¬ l.IsProper ∧
        (∀ a ∈ after, a.IsProper) ∧
        call .append args s = (.error (.native .append (.notList l.text)), s))) ∧
    (∀ args s, args.Lists [] →
      call .append args s = (.ok (.value (.nil ⟨s.nextMark⟩)), s.afterMaking 1)) ∧
    (∀ args s, ¬ args.IsProper →
      call .append args s = (.error (.native .append (.improperList args.text)), s)) ∧
    (∀ args v s, args.Lists [v] →
      ((∃ a u, call .length args s = (.ok a, u)) ↔ ∃ a u, call .reverse args s = (.ok a, u)) ∧
      ((∃ a u, call .reverse args s = (.ok a, u)) ↔
        ∃ m u, call .isList args s = (.ok (.value (.boolean m true)), u)) ∧
      ((∃ a u, call .reverse args s = (.ok a, u)) ↔ v.IsProper)) ∧
    (∀ xs items, xs.Lists items →
      Fulfils .length [xs] (fun n => n.number? = some (items.length : Int)) ∧
      Fulfils .reverse [xs] fun v => v.Lists items.reverse ∧
        Fulfils .reverse [v] fun w => w.Lists items) ∧
    (∀ xs ys, xs.IsProper → ys.IsProper → Fulfils .append [xs, ys] fun zs =>
      (Fulfils .length [xs] fun n => Fulfils .length [ys] fun m => Fulfils .length [zs] fun k =>
        ∃ i j, n.number? = some i ∧ m.number? = some j ∧ k.number? = some (i + j)) ∧
      Fulfils .reverse [zs] fun v => Fulfils .reverse [ys] fun ys' =>
        Fulfils .reverse [xs] fun xs' => Fulfils .append [ys', xs'] fun w =>
          ∃ items, v.Lists items ∧ w.Lists items) ∧
    (∀ vs m s, (State.makeListWithTail vs (.nil m) s).1.toList? = some vs) ∧
    ∀ v, v.IsProper → ∃ vs, v.toList? = some vs ∧
      ∀ s, (State.makeList vs s).1.isAlike v = true := by
  refine ⟨fun args ls t s h => ⟨call_append_iff h s, fun parts hparts => call_append h hparts s,
      fun hls => ?_⟩, fun args s h => call_append_nothing h s,
    fun args s h => call_append_improper h s, fun args v s h => ?_, fun xs items hxs => ?_,
    ?_, fun vs m s => ?_, ?_⟩
  · obtain ⟨before, l, after, rfl, hl, hafter⟩ := exists_last_not_proper hls
    exact ⟨before, l, after, rfl, hl, hafter, call_append_refused h hl hafter s⟩
  · rw [call_length_iff h, call_reverse_iff h, call_isList_iff h]
    exact ⟨.rfl, .rfl, .rfl⟩
  · refine ⟨fulfils_length hxs fun n hn => hn, fulfils_reverse hxs fun v hv => ⟨hv, ?_⟩⟩
    rw [← items.reverse_reverse]
    exact fulfils_reverse hv fun w hw => hw
  · rintro xs ys ⟨items, hxs⟩ ⟨more, hys⟩
    refine fulfils_append hxs hys fun zs hzs => ⟨?_, ?_⟩
    · refine fulfils_length hxs fun n hn => fulfils_length hys fun m hm =>
        fulfils_length hzs fun k hk => ⟨_, _, hn, hm, ?_⟩
      rw [hk, List.length_append, Int.natCast_add]
    · refine fulfils_reverse hzs fun v hv => fulfils_reverse hys fun ys' hys' =>
        fulfils_reverse hxs fun xs' hxs' => fulfils_append hys' hxs' fun w hw => ⟨_, hv, ?_⟩
      rwa [List.reverse_append]
  · exact lists_iff.mp ⟨m, (s.makeListWithTail_prepends vs (.nil m)).1⟩
  · rintro v ⟨vs, m, hchain⟩
    refine ⟨vs, lists_iff.mp ⟨m, hchain⟩, fun s => ?_⟩
    obtain ⟨⟨n, hchain'⟩, _⟩ := s.makeList_lists vs
    exact hchain'.isAlike hchain rfl

open Procedures Value in
/-- In front of a string, the item of `(1)` makes a pair with the string itself for its rest; of
`(1 . 1)` and `(1)`, in front of it too, the dotted one is complained about. -/
theorem list_calls_dotted :
    let one := number ⟨0⟩ 1
    let proper := pair ⟨1⟩ one (nil ⟨2⟩)
    let dotted := pair ⟨3⟩ one one
    let tail := string ⟨4⟩ "tail"
    let args := pair ⟨7⟩ proper (pair ⟨6⟩ tail (nil ⟨5⟩))
    let s := { State.initial .empty with nextMark := 9 }
    (∃ v, Prepends [one] tail v ∧ call .append args s = (.ok (.value v), s.afterMaking 1)) ∧
      call .append (pair ⟨8⟩ dotted args) s =
        (.error (.native .append (.notList dotted.text)), s) := by
  intro one proper dotted tail args s
  have hproper : proper.Lists [one] := ⟨_, .cons _ _ (.nil _)⟩
  have hdotted : ¬ dotted.IsProper := by
    rw [isProper_iff]
    decide
  have hargs : args.Lists ([proper] ++ [tail]) := ⟨_, .cons _ _ (.cons _ _ (.nil _))⟩
  have hmore : (pair ⟨8⟩ dotted args).Lists ([dotted, proper] ++ [tail]) :=
    ⟨_, .cons _ _ (.cons _ _ (.cons _ _ (.nil _)))⟩
  refine ⟨(list_calls.1 _ _ _ s hargs).2.1 [[one]] (.cons hproper .nil), ?_⟩
  obtain ⟨before, l, after, hls, hl, _, hcall⟩ := (list_calls.1 _ _ _ s hmore).2.2
    fun hall => hdotted (hall _ List.mem_cons_self)
  match before with
  | [] =>
      cases hls
      exact hcall
  | [_] =>
      cases hls
      exact absurd ⟨_, hproper⟩ hl
  | _ :: _ :: _ => simp at hls

end TinyLisp
