import TinyLisp.FileSystem

/-!
Files that are made and found again.  Directories lead to the same places as long as none of them is
taken away.  Main statement: `locate_of_create`, the written path that made a file leads to it.
-/

namespace TinyLisp.FileSystem

/-- Every directory of the first file system is one in the second. -/
def Within (fs fs' : FileSystem) : Prop :=
  ∀ path, fs.find? path = some .directory → fs'.find? path = some .directory

theorem find?_insert_of_ne {fs : FileSystem} {path other : Path} (node : Node)
    (h : other ≠ path) : (fs.insert path node).find? other = fs.find? other := by
  have hlookup (nodes : List (Path × Node)) :
      (nodes.filter fun entry => entry.1 != path).lookup other = nodes.lookup other := by
    induction nodes with
    | nil => rfl
    | cons entry nodes ih =>
        by_cases hpath : entry.1 = path
        · have hskipped : (other == entry.1) = false := by simpa [hpath] using h
          rw [List.filter_cons_of_neg (by simpa using hpath), ih, List.lookup_cons, hskipped]
        · rw [List.filter_cons_of_pos (by simpa using hpath), List.lookup_cons, List.lookup_cons,
            ih]
  have hne : (other == path) = false := by simpa using h
  simp [find?, insert, List.lookup_cons, hne, hlookup]

/-- Where there may be a file, it is found once it is there. -/
theorem find?_insert_of_ne_directory {fs : FileSystem} {path : Path}
    (h : fs.find? path ≠ some .directory) (node : Node) :
    (fs.insert path node).find? path = some node := by
  refine find?_insert_self ?_
  cases hfixed : path.all (· == "..") || path == ["/"] with
  | false => rfl
  | true =>
      rw [find?, if_pos hfixed] at h
      exact absurd rfl h

/-- Putting a node where there is no directory takes no directory away. -/
theorem within_insert {fs : FileSystem} {path : Path}
    (h : fs.find? path ≠ some .directory) (node : Node) : fs.Within (fs.insert path node) := by
  intro other hother
  have hne : other ≠ path := by
    rintro rfl
    exact h hother
  rw [find?_insert_of_ne node hne]
  exact hother

section Locate

variable {fs fs' : FileSystem} {written : String} {path directory : Path}

theorem Within.enter (h : fs.Within fs') {name : String}
    (hrun : fs.enter directory name = .ok path) : fs'.enter directory name = .ok path := by
  unfold FileSystem.enter at hrun ⊢
  split at hrun
  · next hstay => rw [if_pos hstay, hrun]
  · next hstay =>
      rw [if_neg hstay]
      split at hrun
      · next hup => rw [if_pos hup, hrun]
      · next hup =>
          rw [if_neg hup]
          split at hrun
          · cases hrun
          · next hlong =>
              rw [if_neg hlong]
              split at hrun
              · cases hrun
              · cases hrun
              · next hfound =>
                  rw [h _ hfound]
                  exact hrun

theorem Within.enterAll (h : fs.Within fs') {names : List String}
    (hrun : names.foldlM fs.enter directory = .ok path) :
    names.foldlM fs'.enter directory = .ok path := by
  induction names generalizing directory with
  | nil => exact hrun
  | cons name names ih =>
      rw [List.foldlM_cons] at hrun ⊢
      cases hfirst : fs.enter directory name with
      | error e =>
          rw [hfirst] at hrun
          cases hrun
      | ok next =>
          rw [hfirst] at hrun
          rw [h.enter hfirst]
          exact ih hrun

/-- A path that may be written has a last name. -/
theorem split_ne_nil (h : checkWritten written = .ok ()) : (split written).2 ≠ [] := by
  have hnonempty : written.toList ≠ [] := by
    intro hnil
    obtain rfl : written = "" := String.toList_inj.mp hnil
    cases h
  obtain ⟨c, cs, hcs⟩ := List.exists_cons_of_ne_nil hnonempty
  simp only [split, hcs]
  split
  · next rest hnames =>
      rw [List.splitOnP_cons_eq_if_modifyHead] at hnames
      split at hnames
      · rw [List.map_cons, List.cons.injEq] at hnames
        rw [← hnames.2, Ne, List.map_eq_nil_iff]
        exact List.splitOnP_ne_nil _ cs
      · -- The first name is not empty.
        obtain ⟨name, names, hsplit⟩ := List.exists_cons_of_ne_nil
          (List.splitOnP_ne_nil (· == '/') cs)
        rw [hsplit, List.modifyHead_cons, List.map_cons, List.cons.injEq] at hnames
        have hlist := congrArg String.toList hnames.1
        rw [String.toList_ofList] at hlist
        cases hlist
  · rw [Ne, List.map_eq_nil_iff]
    exact List.splitOnP_ne_nil _ _

/-- Where there is no empty name to drop at the end, the last name is not empty. -/
theorem getLastD_of_not_dropped {names : List String} (hnames : names ≠ [])
    (h : ¬ (names.reverse.dropWhile (· == "")).reverse.length < names.length) :
    (names.reverse.dropWhile (· == "")).reverse = names ∧ names.getLastD "" ≠ "" := by
  have hsame : names.reverse.dropWhile (· == "") = names.reverse := by
    refine (List.dropWhile_suffix _).eq_of_length_le ?_
    rw [List.length_reverse] at h ⊢
    exact Nat.le_of_not_lt h
  refine ⟨by rw [hsame, List.reverse_reverse], ?_⟩
  obtain ⟨last, front, hlast⟩ := List.exists_cons_of_ne_nil (List.reverse_ne_nil_iff.mpr hnames)
  have hnames : names = front.reverse ++ [last] := by
    rw [← names.reverse_reverse, hlast, List.reverse_cons]
  rintro hempty
  obtain rfl : last = "" := by simpa [hnames] using hempty
  have hlength := congrArg List.length hsame
  rw [hlast, List.dropWhile_cons_of_pos rfl, List.length_cons] at hlength
  have hle := (List.dropWhile_suffix (l := front) (· == "")).length_le
  omega

/-- What it takes to make a file: the directory is there, and the name is that of no directory. -/
theorem create_eq_ok (h : fs.create written = .ok (path, fs')) :
    ∃ directory,
      let name := (split written).2.getLastD ""
      checkWritten written = .ok () ∧
      (split written).2.dropLast.foldlM fs.enter (split written).1 = .ok directory ∧
      path = name :: directory ∧ name ≠ "" ∧ name ≠ "." ∧ name ≠ ".." ∧
      ¬ nameLimit < name.utf8ByteSize ∧
      fs.find? path ≠ some .directory ∧ fs' = fs.insert path (.file []) := by
  unfold create at h
  cases hcheck : checkWritten written with
  | error e =>
      rw [hcheck] at h
      cases h
  | ok u =>
      have hnames := split_ne_nil hcheck
      rw [hcheck] at h
      simp only [bind, Except.bind] at h
      generalize split written = parts at h hnames ⊢
      obtain ⟨start, names⟩ := parts
      dsimp only at h hnames ⊢
      split at h
      · cases h
      · next directory henter =>
          split at h
          · cases h
          · next hkept =>
              rw [not_or, not_or] at hkept
              obtain ⟨hkept, hdot, hup⟩ := hkept
              obtain ⟨hsame, hempty⟩ := getLastD_of_not_dropped hnames hkept
              rw [hsame] at h henter hdot hup
              split at h
              · cases h
              · next hlong =>
                  split at h
                  · cases h
                  · next hfree =>
                      cases h
                      exact ⟨directory, rfl, henter, rfl, hempty, hdot, hup, hlong, hfree, rfl⟩

/-- The written path that made a file leads to it, whatever it holds by then. -/
theorem locate_of_create {made : FileSystem} (h : fs.create written = .ok (path, made))
    (hdirectories : fs.Within fs') {node : Node} (hnode : fs'.find? path = some node) :
    fs'.locate written = .ok (path, node) := by
  obtain ⟨directory, hcheck, henter, rfl, hempty, hdot, hup, hlong, _, _⟩ := create_eq_ok h
  simp only [locate, hcheck, hdirectories.enterAll henter, bind, Except.bind]
  rw [if_neg (not_or.mpr ⟨hempty, hdot⟩), if_neg hup, if_neg hlong, hnode]
  rfl

end Locate

end TinyLisp.FileSystem
