import TinyLisp.Value

/-!
Finite maps from names to values.  Main statements: what `find?` answers after each operation, and
that two maps with the same answers bind equally many names.
-/

namespace TinyLisp

/-- Names with their values, each name once. -/
structure Bindings where
  entries : List (String × Value)
  nodup : (entries.map Prod.fst).Nodup

namespace Bindings

/-- Replaces the value of one name in a list of entries, and keeps what comes after it. -/
def replace (x : String) (v : Value) : List (String × Value) → List (String × Value)
  | [] => []
  | entry :: rest => if entry.1 = x then (x, v) :: rest else entry :: replace x v rest

theorem map_fst_replace (x : String) (v : Value) (entries : List (String × Value)) :
    (replace x v entries).map Prod.fst = entries.map Prod.fst := by
  induction entries with
  | nil => rfl
  | cons entry rest ih =>
      by_cases h : entry.1 = x
      · simp [replace, h]
      · simp [replace, h, ih]

/-- No name is bound. -/
def empty : Bindings := ⟨[], by simp⟩

instance : EmptyCollection Bindings := ⟨empty⟩

instance : Inhabited Bindings := ⟨empty⟩

/-- The value of a name. -/
def find? (b : Bindings) (x : String) : Option Value :=
  b.entries.lookup x

def contains (b : Bindings) (x : String) : Bool :=
  (b.find? x).isSome

/-- The number of names bound. -/
def size (b : Bindings) : Nat :=
  b.entries.length

/-- The names bound. -/
def names (b : Bindings) : List String :=
  b.entries.map Prod.fst

theorem lookup_isSome_iff {x : String} {entries : List (String × Value)} :
    (entries.lookup x).isSome = true ↔ x ∈ entries.map Prod.fst := by
  induction entries with
  | nil => simp
  | cons entry rest ih =>
      obtain ⟨y, w⟩ := entry
      by_cases h : x = y
      · simp [h]
      · have hne : (x == y) = false := by simpa using h
        simp only [List.lookup_cons, hne, List.map_cons, List.mem_cons, h, false_or]
        exact ih

theorem contains_iff {b : Bindings} {x : String} : b.contains x = true ↔ x ∈ b.names :=
  lookup_isSome_iff

/-- Gives a name a value, whether it had one or not. -/
def insert (b : Bindings) (x : String) (v : Value) : Bindings :=
  if h : b.contains x = true then
    ⟨replace x v b.entries, by rw [map_fst_replace]; exact b.nodup⟩
  else
    ⟨(x, v) :: b.entries, by
      rw [List.map_cons, List.nodup_cons]
      exact ⟨fun hmem => h (contains_iff.mpr hmem), b.nodup⟩⟩

/-- Whether two lists of entries have the same names in the same order.  Lists made from one another
share their ends in memory, and an end is not compared with itself. -/
def sameNames : (entries others : List (String × Value)) →
    { same : Bool // entries = others → same = true }
  | [], [] => ⟨true, fun _ => rfl⟩
  | (x, _) :: rest, (y, _) :: others =>
      ⟨x == y && withPtrEq rest others (fun _ => (sameNames rest others).1) (sameNames rest others).2,
        fun h => by
          obtain ⟨hentry, hrest⟩ := List.cons.inj h
          simp [withPtrEq, (Prod.mk.inj hentry).1, (sameNames rest others).2 hrest]⟩
  | [], _ :: _ => ⟨false, nofun⟩
  | _ :: _, [] => ⟨false, nofun⟩

theorem map_fst_of_sameNames {entries others : List (String × Value)}
    (h : (sameNames entries others).1 = true) :
    entries.map Prod.fst = others.map Prod.fst := by
  induction entries generalizing others with
  | nil =>
      cases others with
      | nil => rfl
      | cons entry others => simp [sameNames] at h
  | cons entry rest ih =>
      cases others with
      | nil => simp [sameNames] at h
      | cons other others =>
          simp only [sameNames, withPtrEq, Bool.and_eq_true, beq_iff_eq] at h
          simp [h.1, ih h.2]

/-- The entries whose names `upper` leaves free.  From where the names of `upper` follow, nothing
is left. -/
def free (upper : Bindings) : List (String × Value) → List (String × Value)
  | [] => []
  | entry :: rest =>
      if withPtrEq (entry :: rest) upper.entries
          (fun _ => (sameNames (entry :: rest) upper.entries).1)
          (sameNames (entry :: rest) upper.entries).2 then
        []
      else if upper.contains entry.1 then
        free upper rest
      else
        entry :: free upper rest

theorem free_eq_filter (upper : Bindings) (entries : List (String × Value)) :
    free upper entries = entries.filter fun entry => !upper.contains entry.1 := by
  induction entries with
  | nil => rfl
  | cons entry rest ih =>
      rw [free]
      split
      · next h =>
          have hnames := map_fst_of_sameNames (by simpa only [withPtrEq] using h)
          rw [eq_comm, List.filter_eq_nil_iff]
          intro other hother
          have hbound : upper.contains other.1 = true := by
            rw [contains_iff, names, ← hnames]
            exact List.mem_map_of_mem hother
          simp [hbound]
      · by_cases hbound : upper.contains entry.1 = true
        · simp [hbound, ih]
        · simp [hbound, ih]

/-- The bindings of `upper` where it has any, those of `b` elsewhere. -/
def overlay (b upper : Bindings) : Bindings :=
  ⟨free upper b.entries ++ upper.entries, by
    rw [free_eq_filter, List.map_append, List.nodup_append]
    refine ⟨?_, upper.nodup, ?_⟩
    · exact b.nodup.sublist (List.filter_sublist.map Prod.fst)
    · intro x hx y hy hxy
      obtain ⟨entry, hentry, rfl⟩ := List.mem_map.mp hx
      have hfree := (List.mem_filter.mp hentry).2
      rw [hxy] at hfree
      rw [contains_iff.mpr hy] at hfree
      simp at hfree⟩

/-- The last value given for each name of a list. -/
def ofList (entries : List (String × Value)) : Bindings :=
  entries.foldl (fun b entry => b.insert entry.1 entry.2) empty

@[simp] theorem find?_empty (x : String) : find? ∅ x = none := rfl

theorem lookup_replace (x y : String) (v : Value) (entries : List (String × Value)) :
    (replace x v entries).lookup y =
      if y = x then (entries.lookup y).map fun _ => v else entries.lookup y := by
  induction entries with
  | nil => simp [replace]
  | cons entry rest ih =>
      obtain ⟨z, w⟩ := entry
      simp only [replace]
      by_cases hz : z = x
      · subst hz
        by_cases hy : y = z
        · simp [hy]
        · have hne : (y == z) = false := by simpa using hy
          simp only [if_true, List.lookup_cons, hne, if_neg hy]
      · by_cases hy : y = z
        · subst hy
          simp [hz]
        · have hne : (y == z) = false := by simpa using hy
          simp only [if_neg hz, List.lookup_cons, hne, ih]

/-- Inserting sets one name and leaves every other. -/
theorem find?_insert (b : Bindings) (x y : String) (v : Value) :
    (b.insert x v).find? y = if y = x then some v else b.find? y := by
  unfold insert
  split
  · next h =>
      by_cases hy : y = x
      · subst hy
        obtain ⟨w, hw⟩ := Option.isSome_iff_exists.mp h
        have hlookup : b.entries.lookup y = some w := hw
        simp [find?, lookup_replace, hlookup]
      · simp [find?, lookup_replace, hy]
  · by_cases hy : y = x
    · subst hy
      simp [find?]
    · have hne : (y == x) = false := by simpa using hy
      simp [find?, List.lookup_cons, hne, hy]

theorem lookup_append (x : String) (first second : List (String × Value)) :
    (first ++ second).lookup x = (first.lookup x).or (second.lookup x) := by
  induction first with
  | nil => simp
  | cons entry rest ih =>
      obtain ⟨y, w⟩ := entry
      by_cases h : x = y
      · simp [h]
      · have hne : (x == y) = false := by simpa using h
        simp only [List.cons_append, List.lookup_cons, hne, ih]

theorem lookup_filter (p : String → Bool) (x : String) (entries : List (String × Value)) :
    (entries.filter fun entry => p entry.1).lookup x =
      if p x = true then entries.lookup x else none := by
  induction entries with
  | nil => simp
  | cons entry rest ih =>
      obtain ⟨y, w⟩ := entry
      by_cases hp : p y = true
      · simp only [List.filter_cons, hp, if_true]
        by_cases h : x = y
        · subst h
          simp [hp]
        · have hne : (x == y) = false := by simpa using h
          simp only [List.lookup_cons, hne, ih]
      · simp only [List.filter_cons, hp, Bool.false_eq_true, if_false, ih]
        by_cases h : x = y
        · subst h
          simp [hp]
        · have hne : (x == y) = false := by simpa using h
          simp only [List.lookup_cons, hne]

/-- The upper bindings decide; a name they leave free keeps its value. -/
theorem find?_overlay (b upper : Bindings) (x : String) :
    (b.overlay upper).find? x = (upper.find? x).or (b.find? x) := by
  simp only [find?, overlay, free_eq_filter, lookup_append,
    lookup_filter (fun y => !upper.contains y)]
  cases h : upper.entries.lookup x with
  | none =>
      have hfree : upper.contains x = false := by simp [contains, find?, h]
      simp [hfree]
  | some w =>
      have hbound : upper.contains x = true := by simp [contains, find?, h]
      simp [hbound]

theorem contains_insert (b : Bindings) (x y : String) (v : Value) :
    (b.insert x v).contains y = (decide (y = x) || b.contains y) := by
  by_cases h : y = x <;> simp [contains, find?_insert, h]

theorem contains_overlay (b upper : Bindings) (x : String) :
    (b.overlay upper).contains x = (upper.contains x || b.contains x) := by
  simp [contains, find?_overlay, Option.isSome_or]

theorem mem_names_iff {b : Bindings} {x : String} : x ∈ b.names ↔ ∃ v, b.find? x = some v := by
  rw [← contains_iff, contains, Option.isSome_iff_exists]

/-- Maps that bind the same names are equally large. -/
theorem size_eq_of_names {b c : Bindings} (h : ∀ x, x ∈ b.names ↔ x ∈ c.names) :
    b.size = c.size := by
  have hperm : b.names.Perm c.names :=
    (List.perm_ext_iff_of_nodup b.nodup c.nodup).mpr h
  simpa [names, size] using hperm.length_eq

/-- Inserting adds a name only if it was free. -/
theorem size_insert (b : Bindings) (x : String) (v : Value) :
    (b.insert x v).size = if b.contains x = true then b.size else b.size + 1 := by
  have hlength : (replace x v b.entries).length = b.entries.length := by
    rw [← List.length_map, map_fst_replace, List.length_map]
  unfold insert
  split <;> simp_all [size]

end Bindings

end TinyLisp
