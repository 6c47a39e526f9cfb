import Mathlib.Data.Finmap
import TinyLisp.Proofs.Run

/-!
Environments as finite maps that handles share.  Whatever is done through handles, in any order, and
whatever is asked in between, is answered as if each handle pointed to a finite map of names to
values.  Main statement: `environments_share_maps`; what each operation makes of the maps is said
operation by operation, in `environments_refine`.
-/

namespace TinyLisp

/-! ### Bindings as finite maps -/

/-- Finite maps from names to values. -/
abbrev NameMap := Finmap fun _ : String => Value

/-- The map with the last value given for each name. -/
def NameMap.ofEntries (entries : List (String × Value)) : NameMap :=
  entries.foldl (fun m entry => m.insert entry.1 entry.2) ∅

namespace Bindings

/-- The map that bindings stand for. -/
def toMap (b : Bindings) : NameMap :=
  (b.entries.map fun entry => (⟨entry.1, entry.2⟩ : (_ : String) × Value)).toFinmap

variable (b : Bindings) (x : String) (v : Value)

@[simp] theorem lookup_toMap : b.toMap.lookup x = b.find? x := by
  rw [toMap, Finmap.dlookup_list_toFinmap, find?]
  induction b.entries with
  | nil => rfl
  | cons entry rest ih =>
      obtain ⟨y, w⟩ := entry
      by_cases h : x = y
      · subst h
        simp
      · have hne : (x == y) = false := by simpa using h
        rw [List.map_cons, List.dlookup_cons_ne _ _ h, ih, List.lookup_cons, hne]

theorem contains_eq_decide_mem : b.contains x = decide (x ∈ b.toMap) := by
  rw [Bool.eq_iff_iff, decide_eq_true_iff, ← Finmap.lookup_isSome, lookup_toMap, contains]

/-- Names are counted once. -/
theorem size_eq_card : b.size = b.toMap.keys.card := by
  have hkeys : b.toMap.keys = b.names.toFinset := by
    ext x
    rw [Finmap.mem_keys, List.mem_toFinset, ← contains_iff, contains_eq_decide_mem,
      decide_eq_true_iff]
  rw [hkeys, names, List.toFinset_card_of_nodup b.nodup, List.length_map, size]

theorem toMap_empty : (∅ : Bindings).toMap = ∅ := rfl

theorem toMap_insert : (b.insert x v).toMap = b.toMap.insert x v := by
  refine Finmap.ext_lookup fun y => ?_
  rw [lookup_toMap, find?_insert]
  split
  · next h => rw [h, Finmap.lookup_insert]
  · next h => rw [Finmap.lookup_insert_of_ne _ h, lookup_toMap]

/-- What lies above wins. -/
theorem toMap_overlay (upper : Bindings) : (b.overlay upper).toMap = upper.toMap ∪ b.toMap := by
  refine Finmap.ext_lookup fun x => ?_
  rw [lookup_toMap, find?_overlay]
  by_cases h : x ∈ upper.toMap
  · obtain ⟨v, hv⟩ := Finmap.mem_iff.mp h
    rw [Finmap.lookup_union_left h, hv, ← lookup_toMap, hv, Option.some_or]
  · rw [Finmap.lookup_union_right h, ← lookup_toMap, Finmap.lookup_eq_none.mpr h, Option.none_or,
      lookup_toMap]

theorem toMap_ofList (entries : List (String × Value)) :
    (ofList entries).toMap = .ofEntries entries := by
  rw [ofList, NameMap.ofEntries, ← toMap_empty]
  change (entries.foldl _ (∅ : Bindings)).toMap = _
  generalize (∅ : Bindings) = b
  induction entries generalizing b with
  | nil => rfl
  | cons entry entries ih => rw [List.foldl_cons, List.foldl_cons, ih, toMap_insert]

end Bindings

/-! ### Calls through handles -/

/-- Something to be done with environments.  Handles are numbered in the order in which they were
obtained. -/
inductive EnvCall where
  | make
  | makeOf (entries : List (String × Value))
  | share (i : Nat)
  | snapshot (i : Nat)
  | bind (i : Nat) (x : String) (v : Value)
  | define (i : Nat) (x : String) (v : Value)
  | merge (i j : Nat)
  | lookup (i : Nat) (x : String)
  | contains (i : Nat) (x : String)
  | size (i : Nat)
  | isEmpty (i : Nat)
  | same (i j : Nat)

/-- What a call is answered. -/
inductive EnvAnswer where
  | done
  | outcome (r : Except Error Unit)
  | value (v : Option Value)
  | truth (b : Bool)
  | count (n : Nat)
  | noHandle

/-- The operations on environments, given what holds them and what refers to one of them. -/
structure EnvOperations (σ η : Type) where
  make : List (String × Value) → σ → η × σ
  snapshot : η → σ → η × σ
  bind : η → String → Value → σ → σ
  define : η → String → Value → σ → Except Error Unit × σ
  merge : η → η → σ → σ
  lookup : η → String → σ → Option Value
  contains : η → String → σ → Bool
  size : η → σ → Nat
  isEmpty : η → σ → Bool
  same : η → η → Bool

namespace EnvOperations

variable {σ τ η : Type}

/-- Goes on with a handle, if there is one of that number. -/
def withHandle (hs : List η) (s : σ) (i : Nat) (next : η → EnvAnswer × List η × σ) :
    EnvAnswer × List η × σ :=
  match hs[i]? with
  | none => (.noHandle, hs, s)
  | some h => next h

/-- The answer to a call, the handles there are after it, and what it leaves. -/
def answer (ops : EnvOperations σ η) (hs : List η) (s : σ) : EnvCall → EnvAnswer × List η × σ
  | .make => (.done, hs ++ [(ops.make [] s).1], (ops.make [] s).2)
  | .makeOf entries => (.done, hs ++ [(ops.make entries s).1], (ops.make entries s).2)
  | .share i => withHandle hs s i fun h => (.done, hs ++ [h], s)
  | .snapshot i =>
      withHandle hs s i fun h => (.done, hs ++ [(ops.snapshot h s).1], (ops.snapshot h s).2)
  | .bind i x v => withHandle hs s i fun h => (.done, hs, ops.bind h x v s)
  | .define i x v =>
      withHandle hs s i fun h => (.outcome (ops.define h x v s).1, hs, (ops.define h x v s).2)
  | .merge i j =>
      withHandle hs s i fun h => withHandle hs s j fun k => (.done, hs, ops.merge h k s)
  | .lookup i x => withHandle hs s i fun h => (.value (ops.lookup h x s), hs, s)
  | .contains i x => withHandle hs s i fun h => (.truth (ops.contains h x s), hs, s)
  | .size i => withHandle hs s i fun h => (.count (ops.size h s), hs, s)
  | .isEmpty i => withHandle hs s i fun h => (.truth (ops.isEmpty h s), hs, s)
  | .same i j =>
      withHandle hs s i fun h => withHandle hs s j fun k => (.truth (ops.same h k), hs, s)

/-- The answers to calls that are made one after the other. -/
def answers (ops : EnvOperations σ η) : List EnvCall → List η → σ → List EnvAnswer
  | [], _, _ => []
  | call :: calls, hs, s =>
      let (a, hs', t) := ops.answer hs s call
      a :: ops.answers calls hs' t

/-- Operations that come to those of another kind, on what the things they are done on stand for. -/
structure Refines (ops : EnvOperations σ η) (reference : EnvOperations τ η) (abstract : σ → τ) :
    Prop where
  make : ∀ entries s,
    reference.make entries (abstract s) = (ops.make entries s).map id abstract
  snapshot : ∀ h s, reference.snapshot h (abstract s) = (ops.snapshot h s).map id abstract
  bind : ∀ h x v s, reference.bind h x v (abstract s) = abstract (ops.bind h x v s)
  define : ∀ h x v s, reference.define h x v (abstract s) = (ops.define h x v s).map id abstract
  merge : ∀ h k s, reference.merge h k (abstract s) = abstract (ops.merge h k s)
  lookup : ∀ h x s, reference.lookup h x (abstract s) = ops.lookup h x s
  contains : ∀ h x s, reference.contains h x (abstract s) = ops.contains h x s
  size : ∀ h s, reference.size h (abstract s) = ops.size h s
  isEmpty : ∀ h s, reference.isEmpty h (abstract s) = ops.isEmpty h s
  same : ∀ h k, reference.same h k = ops.same h k

namespace Refines

variable {ops : EnvOperations σ η} {reference : EnvOperations τ η} {abstract : σ → τ}

theorem withHandle {hs : List η} {s : σ} {i : Nat} {next : η → EnvAnswer × List η × σ}
    {next' : η → EnvAnswer × List η × τ}
    (h : ∀ k, next' k = (next k).map id (Prod.map id abstract)) :
    EnvOperations.withHandle hs (abstract s) i next' =
      (EnvOperations.withHandle hs s i next).map id (Prod.map id abstract) := by
  unfold EnvOperations.withHandle
  split
  · rfl
  · exact h _

/-- One call is answered alike, and leaves what stands for what the reference leaves. -/
theorem answer (h : ops.Refines reference abstract) (hs : List η) (s : σ) (call : EnvCall) :
    reference.answer hs (abstract s) call =
      (ops.answer hs s call).map id (Prod.map id abstract) := by
  cases call with
  | make => simp only [EnvOperations.answer, h.make, Prod.map, id]
  | makeOf entries => simp only [EnvOperations.answer, h.make, Prod.map, id]
  | share i => exact withHandle fun _ => rfl
  | snapshot i => exact withHandle fun k => by simp only [h.snapshot, Prod.map, id]
  | bind i x v => exact withHandle fun k => by simp only [h.bind, Prod.map, id]
  | define i x v => exact withHandle fun k => by simp only [h.define, Prod.map, id]
  | merge i j =>
      exact withHandle fun k => withHandle fun l => by simp only [h.merge, Prod.map, id]
  | lookup i x => exact withHandle fun k => by simp only [h.lookup, Prod.map, id]
  | contains i x => exact withHandle fun k => by simp only [h.contains, Prod.map, id]
  | size i => exact withHandle fun k => by simp only [h.size, Prod.map, id]
  | isEmpty i => exact withHandle fun k => by simp only [h.isEmpty, Prod.map, id]
  | same i j =>
      exact withHandle fun k => withHandle fun l => by simp only [h.same, Prod.map, id]

/-- Any number of calls are answered alike. -/
theorem answers (h : ops.Refines reference abstract) (calls : List EnvCall) (hs : List η) (s : σ) :
    ops.answers calls hs s = reference.answers calls hs (abstract s) := by
  induction calls generalizing hs s with
  | nil => rfl
  | cons call calls ih =>
      rw [EnvOperations.answers, EnvOperations.answers, h.answer]
      exact congrArg _ (ih _ _)

end Refines

end EnvOperations

/-! ### Environments, and maps in their place -/

/-- Environments as the program has them. -/
def environmentOperations : EnvOperations State EnvId where
  make entries s := State.newEnvironment (.ofList entries) s
  snapshot env s := State.snapshot env s
  bind env x v s := s.bind env x v
  define env x v s := State.define env x v s
  merge env upper s := s.merge env upper
  lookup env x s := s.lookup env x
  contains env x s := (s.bindings env).contains x
  size env s := (s.bindings env).size
  isEmpty env s := (s.bindings env).size == 0
  same env other := env == other

/-- The map that a handle points to. -/
def mapAt (maps : List NameMap) (env : EnvId) : NameMap :=
  maps.getD env.index ∅

/-- Maps in the place of environments: a new handle points to a new map, and a map that is changed
is changed for all handles that point to it, and for no other. -/
def mapOperations : EnvOperations (List NameMap) EnvId where
  make entries maps := (⟨maps.length⟩, maps ++ [.ofEntries entries])
  snapshot env maps := (⟨maps.length⟩, maps ++ [mapAt maps env])
  bind env x v maps := maps.set env.index ((mapAt maps env).insert x v)
  define env x v maps :=
    if x ∈ mapAt maps env then (.error (.redefinition x), maps)
    else (.ok (), maps.set env.index ((mapAt maps env).insert x v))
  merge env upper maps := maps.set env.index (mapAt maps upper ∪ mapAt maps env)
  lookup env x maps := (mapAt maps env).lookup x
  contains env x maps := decide (x ∈ mapAt maps env)
  size env maps := (mapAt maps env).keys.card
  isEmpty env maps := decide ((mapAt maps env).keys = ∅)
  same env other := env == other

theorem set_mapAt (maps : List NameMap) (env : EnvId) :
    maps.set env.index (mapAt maps env) = maps := by
  by_cases h : env.index < maps.length
  · rw [mapAt, List.getD_eq_getElem?_getD, List.getElem?_eq_getElem h, Option.getD_some,
      List.set_getElem_self]
  · exact List.set_eq_of_length_le (Nat.not_lt.mp h)

namespace State

/-- The maps that the environments of a state stand for. -/
def maps (s : State) : List NameMap :=
  s.environments.toList.map Bindings.toMap

variable (s : State) (env : EnvId)

@[simp] theorem mapAt_maps : mapAt s.maps env = (s.bindings env).toMap := by
  rw [mapAt, maps, bindings, List.getD_eq_getElem?_getD, List.getElem?_map, Array.getElem?_toList,
    Array.getD_eq_getD_getElem?]
  cases s.environments[env.index]? <;> rfl

@[simp] theorem length_maps : s.maps.length = s.environments.size := by
  simp [maps]

theorem maps_newEnvironment (b : Bindings) :
    (newEnvironment b s).2.maps = s.maps ++ [b.toMap] := by
  simp [maps, newEnvironment]

theorem maps_setBindings (b : Bindings) :
    (s.setBindings env b).maps = s.maps.set env.index b.toMap := by
  simp [maps, setBindings, List.map_set]

theorem maps_bind (x : String) (v : Value) :
    (s.bind env x v).maps = s.maps.set env.index ((s.bindings env).toMap.insert x v) := by
  rw [State.bind, maps_setBindings, Bindings.toMap_insert]

/-- Bindings that are laid over themselves stay as they are, so that it does not matter to the maps
that they are not touched. -/
theorem maps_merge (upper : EnvId) :
    (s.merge env upper).maps =
      s.maps.set env.index ((s.bindings upper).toMap ∪ (s.bindings env).toMap) := by
  rw [merge]
  split
  · next h =>
      subst h
      have hself : (s.bindings env).toMap ∪ (s.bindings env).toMap = mapAt s.maps env := by
        rw [← Bindings.toMap_overlay, mapAt_maps]
        refine Finmap.ext_lookup fun x => ?_
        rw [Bindings.lookup_toMap, Bindings.lookup_toMap, Bindings.find?_overlay, Option.or_self]
      rw [hself, set_mapAt]
  · rw [maps_setBindings, Bindings.toMap_overlay]

end State

theorem environments_refine : environmentOperations.Refines mapOperations State.maps where
  make entries s := by
    refine Prod.ext (congrArg EnvId.mk s.length_maps) ?_
    change s.maps ++ [.ofEntries entries] = _
    rw [← Bindings.toMap_ofList]
    exact (s.maps_newEnvironment (.ofList entries)).symm
  snapshot env s := by
    refine Prod.ext (congrArg EnvId.mk s.length_maps) ?_
    change s.maps ++ [mapAt s.maps env] = _
    rw [State.mapAt_maps]
    exact (s.maps_newEnvironment (s.bindings env)).symm
  bind env x v s := by simp [environmentOperations, mapOperations, State.maps_bind]
  define env x v s := by
    simp only [environmentOperations, mapOperations, State.mapAt_maps, Evaluator.define_apply,
      Bindings.contains_eq_decide_mem, decide_eq_true_iff]
    split
    · rfl
    · rw [← State.maps_bind]
      rfl
  merge env upper s := by simp [environmentOperations, mapOperations, State.maps_merge]
  lookup env x s := by simp [environmentOperations, mapOperations, State.lookup]
  contains env x s := by
    simp [environmentOperations, mapOperations, Bindings.contains_eq_decide_mem]
  size env s := by simp [environmentOperations, mapOperations, Bindings.size_eq_card]
  isEmpty env s := by
    rw [Bool.eq_iff_iff]
    simp [environmentOperations, mapOperations, Bindings.size_eq_card]
  same _ _ := rfl

/-- Whatever handles there are to begin with, if any, environments cannot be told from finite maps
that the handles share. -/
theorem environments_share_maps (calls : List EnvCall) (hs : List EnvId) (s : State) :
    environmentOperations.answers calls hs s = mapOperations.answers calls hs s.maps :=
  environments_refine.answers calls hs s

end TinyLisp
