import JsxLint.Scan.Basic

/-!
# Walking a directory

A walk goes through directories and links to directories, each before what is in it and its
subdirectories in the order of their names. A directory that it comes to a second time, by
whatever way, is passed over, so a walk ends in every file tree.

* `Files.unvisited`: how many directories are left to visit;
* `Selection.walk`: the files that a walk takes;
* `Selection.scan`: the same in the order of their names.
-/

namespace JsxLint

namespace Files

/-- How many directories are not among the given ones. -/
def unvisited (f : Files) (visited : List RealPath) : Nat :=
  (f.directories.filter fun p => !visited.contains p).length

/-- What looking up a path finds stands in the file tree. -/
theorem get?_of_find {f : Files} {p : Path} {q : RealPath} {e : Entry}
    (h : f.find p = .ok (q, e)) : f.get? q = some e := by
  unfold find at h
  cases hl : f.locate p with
  | error => rw [hl] at h; exact absurd h (by simp [Except.bind])
  | ok r =>
    rw [hl] at h
    simp only [Except.bind] at h
    split at h
    · next hr => cases h; exact hr
    · cases h

/-- A directory of the file tree is among its directories. -/
theorem mem_directories {f : Files} {p : RealPath} (h : f.get? p = some .directory) :
    p ∈ f.directories := by
  refine List.mem_filter.2 ⟨?_, by simp [isDirectoryAt, h]⟩
  by_cases hp : p = []
  · simp [hp]
  · simp only [get?, hp, if_false] at h
    obtain ⟨l₁, l₂, he, -⟩ := List.lookup_eq_some_iff.1 h
    simp [he]

/-- There are fewer unvisited directories after a visit. -/
theorem unvisited_cons_lt {f : Files} {p : RealPath} {visited : List RealPath}
    (h : p ∈ f.directories) (hv : p ∉ visited) :
    f.unvisited (p :: visited) < f.unvisited visited := by
  have hf : (f.directories.filter fun q => !(p :: visited).contains q) =
      (f.directories.filter fun q => !visited.contains q).filter (· ≠ p) := by
    rw [List.filter_filter]
    exact List.filter_congr fun q _ => by by_cases hq : q = p <;> simp [hq]
  unfold unvisited
  rw [hf]
  exact List.length_filter_lt_length_iff_exists.2
    ⟨p, List.mem_filter.2 ⟨h, by simp [hv]⟩, by simp⟩

end Files

namespace Selection

/-- The names in a directory below the root that lead to directories, or the other ones. -/
def namesWhere (f : Files) (root : Path) (names : Names) (here : RealPath)
    (isDirectory : Bool) : List Names :=
  ((f.names here).map fun name => names ++ [name]).filter fun names =>
    f.isDirectory (below root names) == isDirectory

/-- The order of paths below the root: by their names, one after the other. -/
def namesLe (a b : Names) : Bool :=
  !List.lex b a fun x y => decide (x < y)

/-- The subdirectories of a directory that are not left out, in order. -/
def subdirectories (s : Selection) (f : Files) (root : Path) (names : Names)
    (here : RealPath) : List Names :=
  ((namesWhere f root names here true).filter fun names => !s.leavesOut f root names).mergeSort
    namesLe

/-- Whether a subdirectory is listed in its directory, but cannot be looked up. That it is ignored
can be told by the names on its way alone. -/
def isStuck (s : Selection) (f : Files) (root : Path) (names : Names) (place : RealPath) : Bool :=
  f.isDirectoryAt place && f.isBarred (below root names) && !names.any s.ignoredNames.contains

/-- The files of a directory that are taken, and with them the subdirectories that cannot be looked
up. -/
def filesIn (s : Selection) (f : Files) (root : Path) (names : Names) (here : RealPath) :
    List Names :=
  (namesWhere f root names here false).filter fun path =>
    s.takes f root path || s.isStuck f root path (here ++ path.drop names.length)

/-- The files that are taken in the pending directories and below them. -/
def walk (s : Selection) (f : Files) (root : Path) (visited : List RealPath) :
    List Names → List Names
  | [] => []
  | names :: pending =>
    match _ : f.find (below root names) with
    | .ok (here, .directory) =>
      if _ : here ∈ visited then s.walk f root visited pending
      else s.filesIn f root names here ++
        s.walk f root (here :: visited) (s.subdirectories f root names here ++ pending)
    | _ => s.walk f root visited pending
termination_by pending => (f.unvisited visited, pending.length)
decreasing_by
  · exact Prod.Lex.right _ (by simp)
  · exact Prod.Lex.left _ _
      (Files.unvisited_cons_lt (Files.mem_directories (Files.get?_of_find ‹_›)) ‹_›)
  · exact Prod.Lex.right _ (by simp)

/-- The files that are taken below the root, in the order of their names. -/
def scan (s : Selection) (f : Files) (root : Path) : List Names :=
  (s.walk f root [] [[]]).mergeSort namesLe

end Selection
end JsxLint
