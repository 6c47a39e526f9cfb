import Mathlib.Logic.Function.Basic
import TinyLisp.Proofs.Evaluation.Equations

/-!
Other marks for the same objects.  A renaming gives every object another mark, no two the same, and
says where the marks go on that are given out while something runs.  Nothing but identity looks at a
mark, so everything else about a value or a state is what it was.  Main statements: `text_rename`,
`eqv_rename` and `equal_rename`, and what the operations on bindings and states do to renamed ones.
-/

namespace TinyLisp

namespace Value

/-- The value with other marks. -/
def rename (f : Mark → Mark) : Value → Value
  | number m n => number (f m) n
  | string m text => string (f m) text
  | symbol m name => symbol (f m) name
  | boolean m b => boolean (f m) b
  | nil m => nil (f m)
  | pair m first rest => pair (f m) (first.rename f) (rest.rename f)
  | lambda m closure formal body => lambda (f m) closure formal (body.rename f)
  | native m procedure => native (f m) procedure
  | environment m env => environment (f m) env
  | port m id => port (f m) id
  | unspecified m => unspecified (f m)
  | eof m => eof (f m)

/-- The marks of the objects that a value is made of. -/
def marks : Value → List Mark
  | number m _ => [m]
  | string m _ => [m]
  | symbol m _ => [m]
  | boolean m _ => [m]
  | nil m => [m]
  | pair m first rest => m :: (first.marks ++ rest.marks)
  | lambda m _ _ body => m :: body.marks
  | native m _ => [m]
  | environment m _ => [m]
  | port m _ => [m]
  | unspecified m => [m]
  | eof m => [m]

variable {f g : Mark → Mark} {v w : Value}

theorem rename_congr (h : ∀ m ∈ v.marks, f m = g m) : v.rename f = v.rename g := by
  induction v with
  | pair m first rest ihFirst ihRest =>
      simp only [marks, List.forall_mem_cons, List.forall_mem_append] at h
      rw [rename, rename, h.1, ihFirst h.2.1, ihRest h.2.2]
  | lambda m closure formal body ih =>
      simp only [marks, List.forall_mem_cons] at h
      rw [rename, rename, h.1, ih h.2]
  | _ => simpa [rename, marks] using h

theorem rename_id (v : Value) : v.rename id = v := by
  induction v with
  | pair m first rest ihFirst ihRest => rw [rename, ihFirst, ihRest, id]
  | lambda m closure formal body ih => rw [rename, ih, id]
  | _ => rfl

theorem marks_rename (f : Mark → Mark) (v : Value) : (v.rename f).marks = v.marks.map f := by
  induction v with
  | pair m first rest ihFirst ihRest => simp [rename, marks, ihFirst, ihRest]
  | lambda m closure formal body ih => simp [rename, marks, ih]
  | _ => rfl

theorem rename_injective (hf : Function.Injective f) : Function.Injective (rename f) := by
  intro v w h
  induction v generalizing w with
  | pair m first rest ihFirst ihRest =>
      cases w with
      | pair m' first' rest' =>
          simp only [rename, pair.injEq] at h
          rw [hf h.1, ihFirst h.2.1, ihRest h.2.2]
      | _ => cases h
  | lambda m closure formal body ih =>
      cases w with
      | lambda m' closure' formal' body' =>
          simp only [rename, lambda.injEq] at h
          rw [hf h.1, h.2.1, h.2.2.1, ih h.2.2.2]
      | _ => cases h
  | _ => cases w <;> simp_all [rename, hf.eq_iff]

/-! ### Kinds and texts -/

@[simp] theorem isNil_rename : (v.rename f).isNil = v.isNil := by cases v <;> rfl

@[simp] theorem isPair_rename : (v.rename f).isPair = v.isPair := by cases v <;> rfl

@[simp] theorem isTrue_rename : (v.rename f).isTrue = v.isTrue := by cases v <;> rfl

@[simp] theorem isFalse_rename : (v.rename f).isFalse = v.isFalse := by cases v <;> rfl

@[simp] theorem isBoolean_rename : (v.rename f).isBoolean = v.isBoolean := by cases v <;> rfl

@[simp] theorem isProcedure_rename : (v.rename f).isProcedure = v.isProcedure := by cases v <;> rfl

@[simp] theorem isEof_rename : (v.rename f).isEof = v.isEof := by cases v <;> rfl

@[simp] theorem number?_rename : (v.rename f).number? = v.number? := by cases v <;> rfl

@[simp] theorem string?_rename : (v.rename f).string? = v.string? := by cases v <;> rfl

@[simp] theorem symbol?_rename : (v.rename f).symbol? = v.symbol? := by cases v <;> rfl

@[simp] theorem environment?_rename : (v.rename f).environment? = v.environment? := by
  cases v <;> rfl

@[simp] theorem port?_rename : (v.rename f).port? = v.port? := by cases v <;> rfl

@[simp] theorem pair?_rename :
    (v.rename f).pair? = v.pair?.map (Prod.map (rename f) (rename f)) := by
  cases v <;> rfl

@[simp] theorem isList_rename : (v.rename f).isList = v.isList := by
  induction v with
  | pair m first rest _ ih => exact ih
  | _ => rfl

@[simp] theorem elements_rename : (v.rename f).elements = v.elements.map (rename f) := by
  induction v with
  | pair m first rest _ ih => simp [rename, ih]
  | _ => rfl

@[simp] theorem toList?_rename : (v.rename f).toList? = v.toList?.map (List.map (rename f)) := by
  unfold toList?
  split <;> simp_all

@[simp] theorem writeAt_rename (p : Position) (k : List Char) :
    (v.rename f).writeAt p k = v.writeAt p k := by
  induction v generalizing p k with
  | pair m first rest ihFirst ihRest =>
      cases p <;> simp [rename, writeAt, ihFirst, ihRest]
  | _ => cases p <;> rfl

@[simp] theorem text_rename : (v.rename f).text = v.text := by
  rw [text, write, writeAt_rename, ← write, ← text]

@[simp] theorem displayed_rename : (v.rename f).displayed = v.displayed := by
  cases v with
  | string m text => rfl
  | _ => exact text_rename

/-! ### Equality -/

-- Only here does it matter that no two objects are given one mark.
section Equality

variable (hf : Function.Injective f)

include hf

theorem isSame_rename : (v.rename f).isSame (w.rename f) = v.isSame w := by
  rw [Bool.eq_iff_iff, isSame_iff, isSame_iff, (rename_injective hf).eq_iff]

theorem eqv_rename : (v.rename f).eqv (w.rename f) = v.eqv w := by
  have hsame := isSame_rename (v := v) (w := w) hf
  cases v <;> cases w <;> first | rfl | exact hsame

theorem equal_rename : (v.rename f).equal (w.rename f) = v.equal w := by
  induction v generalizing w with
  | pair m first rest ihFirst ihRest =>
      cases w with
      | pair m' first' rest' => simp only [rename, equal, ihFirst, ihRest]
      | _ => exact eqv_rename (v := .pair m first rest) hf
  | string m text =>
      cases w with
      | string m' text' => rfl
      | _ => exact eqv_rename (v := .string m text) hf
  | _ => exact eqv_rename hf

end Equality

end Value

/-! ### Bindings -/

namespace Bindings

variable (f : Mark → Mark) (b upper : Bindings) (x : String) (v : Value)

/-- The same names, bound to values with other marks. -/
def rename : Bindings :=
  ⟨b.entries.map (Prod.map id (Value.rename f)), by simpa [Function.comp_def] using b.nodup⟩

theorem eq_of_entries {b c : Bindings} (h : b.entries = c.entries) : b = c := by
  cases b
  cases c
  cases h
  rfl

theorem lookup_map_rename (entries : List (String × Value)) :
    (entries.map (Prod.map id (Value.rename f))).lookup x =
      (entries.lookup x).map (Value.rename f) := by
  induction entries with
  | nil => rfl
  | cons entry rest ih =>
      obtain ⟨y, w⟩ := entry
      simp only [List.map_cons, Prod.map_apply, id, List.lookup_cons, ih]
      split <;> rfl

@[simp] theorem find?_rename : (b.rename f).find? x = (b.find? x).map (Value.rename f) :=
  lookup_map_rename f x b.entries

@[simp] theorem contains_rename : (b.rename f).contains x = b.contains x := by
  rw [contains, contains, find?_rename, Option.isSome_map]

theorem map_rename_replace (entries : List (String × Value)) :
    (replace x v entries).map (Prod.map id (Value.rename f)) =
      replace x (v.rename f) (entries.map (Prod.map id (Value.rename f))) := by
  induction entries with
  | nil => rfl
  | cons entry rest ih =>
      obtain ⟨y, w⟩ := entry
      simp only [replace, List.map_cons, Prod.map_apply, id]
      split
      · rfl
      · rw [List.map_cons, ih, Prod.map_apply, id]

theorem rename_insert : (b.insert x v).rename f = (b.rename f).insert x (v.rename f) := by
  apply eq_of_entries
  unfold insert
  simp only [contains_rename]
  split
  · exact map_rename_replace f x v b.entries
  · rfl

theorem rename_overlay : (b.overlay upper).rename f = (b.rename f).overlay (upper.rename f) := by
  apply eq_of_entries
  have hfree (entry : String × Value) :
      (!(upper.rename f).contains (Prod.map id (Value.rename f) entry).1) =
        !upper.contains entry.1 := by
    rw [contains_rename]
    rfl
  simp only [overlay, rename, free_eq_filter, List.map_append, List.filter_map, Function.comp_def]
  congr 2
  exact (List.filter_congr fun entry _ => hfree entry).symm

theorem rename_callBindings (caller captured : Bindings) (own : Option (String × Value)) :
    (callBindings caller captured own).rename f =
      callBindings (caller.rename f) (captured.rename f)
        (own.map (Prod.map id (Value.rename f))) := by
  cases own with
  | none => exact rename_overlay f caller captured
  | some binding =>
      obtain ⟨x, v⟩ := binding
      simp only [callBindings, rename_insert, rename_overlay, Option.map_some, Prod.map_apply, id]

end Bindings

/-- The report about values with other marks. -/
def Event.rename (f : Mark → Mark) : Event → Event
  | evaluating expr => evaluating (expr.rename f)
  | applying procedure args => applying (procedure.rename f) (args.rename f)
  | initialEnvironment size => initialEnvironment size
  | loading path => loading path
  | openingInput path => openingInput path
  | openingOutput path => openingOutput path

/-! ### States -/

/-- Other marks for all objects.  As long as the marks given out lie in the window, the renamed ones
are those that are given out from `next` on. -/
structure Renaming where
  map : Mark → Mark
  injective : Function.Injective map
  next : Nat → Nat
  window : Nat → Prop
  map_mark : ∀ n, window n → map ⟨n⟩ = ⟨next n⟩
  next_succ : ∀ n, window n → next (n + 1) = next n + 1

/-- Whatever is given out from one mark to another lies in the window. -/
def Renaming.Covers (ρ : Renaming) (first last : Nat) : Prop :=
  ∀ n, first ≤ n → n < last → ρ.window n

namespace Renaming.Covers

variable {ρ : Renaming} {first middle last : Nat} (h : ρ.Covers first last)

include h

theorem left (hle : middle ≤ last) : ρ.Covers first middle :=
  fun n hfirst hmiddle => h n hfirst (Nat.lt_of_lt_of_le hmiddle hle)

theorem right (hle : first ≤ middle) : ρ.Covers middle last :=
  fun n hmiddle hlast => h n (Nat.le_trans hle hmiddle) hlast

end Renaming.Covers

namespace State

/-- The state with other marks for its objects and for those that will be made. -/
def rename (ρ : Renaming) (s : State) : State :=
  { s with
    nextMark := ρ.next s.nextMark
    environments := s.environments.map (Bindings.rename ρ.map)
    events := s.events.map (Event.rename ρ.map) }

variable {ρ : Renaming} (s : State) (env : EnvId) (x : String) (v : Value)

@[simp] theorem bindings_rename : (s.rename ρ).bindings env = (s.bindings env).rename ρ.map := by
  simp only [bindings, rename, Array.getD_eq_getD_getElem?, Array.getElem?_map]
  cases s.environments[env.index]? <;> rfl

@[simp] theorem lookup_rename :
    (s.rename ρ).lookup env x = (s.lookup env x).map (Value.rename ρ.map) := by
  rw [lookup, bindings_rename, Bindings.find?_rename, lookup]

@[simp] theorem files_rename : (s.rename ρ).files = s.files := rfl

theorem rename_marked {s : State} (h : ρ.window s.nextMark) :
    (s.rename ρ).marked = s.marked.rename ρ := by
  rw [marked, marked, rename, rename, ρ.next_succ _ h]

theorem rename_grown (b : Bindings) :
    (s.rename ρ).grown (b.rename ρ.map) = (s.grown b).rename ρ := by
  simp only [grown, rename, Array.map_push]

theorem rename_bind : (s.rename ρ).bind env x (v.rename ρ.map) = (s.bind env x v).rename ρ := by
  have henvironments : (s.rename ρ).environments = s.environments.map (Bindings.rename ρ.map) := rfl
  simp only [bind, setBindings, bindings_rename, ← Bindings.rename_insert, henvironments]
  simp only [rename]
  congr 1
  apply Array.ext_getElem?
  intro i
  simp only [Array.getElem?_setIfInBounds, Array.getElem?_map, Array.size_map]
  split
  · split <;> rfl
  · rfl

theorem rename_trace (e : Event) : (s.rename ρ).trace (e.rename ρ.map) = (s.trace e).rename ρ := by
  have htracing : (s.rename ρ).tracing = s.tracing := rfl
  unfold trace
  rw [htracing]
  split <;> rfl

end State

end TinyLisp
