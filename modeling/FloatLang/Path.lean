/-!
# Paths

A path is text; which file it names depends only on its components. Repeated and trailing
separators and inner `.` steps do not count.

## Main definitions

* `Path.Step` — one component of a path
* `Path.steps` — the components of a path, in order
* `Path.compare`, `Path.same` — order and identity by components
* `Path.fileName?`, `Path.extension?` — the last component and the part after its last dot
-/

namespace FloatLang

/-- The name of a file, as it was written. -/
structure Path where
  text : String
  deriving DecidableEq, Repr, Inhabited

namespace Path

instance : ToString Path := ⟨Path.text⟩

/-- One component of a path, in the order in which components sort. -/
inductive Step
  | root
  | current
  | parent
  | name (text : String)
  deriving DecidableEq, Repr

/-- The place of a component's kind in the order of components. -/
def Step.rank : Step → Nat
  | .root => 0
  | .current => 1
  | .parent => 2
  | .name _ => 3

/-- The text of a name; the other components have none. -/
def Step.text : Step → String
  | .name text => text
  | _ => ""

/-- Components compare by kind, names among themselves by their characters. -/
def Step.compare (a b : Step) : Ordering :=
  (Ord.compare a.rank b.rank).then (Ord.compare a.text b.text)

/-- The component a piece between two separators stands for; an empty piece and an inner `.`
stand for none. -/
def Step.ofPiece? (piece : List Char) : Option Step :=
  match piece with
  | [] => none
  | ['.'] => none
  | ['.', '.'] => some .parent
  | _ => some (.name (String.ofList piece))

/-- The components of a path. A leading separator is the root; a leading `.` is kept. -/
def steps (p : Path) : List Step :=
  match p.text.toList.splitOn '/' with
  | [] => []
  | first :: pieces =>
    let lead : List Step :=
      if first.isEmpty && !pieces.isEmpty then [.root]
      else if first == ['.'] then [.current]
      else (Step.ofPiece? first).toList
    lead ++ pieces.filterMap Step.ofPiece?

/-- Lexicographic order of two lists of components. -/
def compareSteps : List Step → List Step → Ordering
  | [], [] => .eq
  | [], _ :: _ => .lt
  | _ :: _, [] => .gt
  | a :: as, b :: bs => (a.compare b).then (compareSteps as bs)

/-- Paths sort component by component. -/
def compare (a b : Path) : Ordering := compareSteps a.steps b.steps

/-- Two spellings of one path. -/
def same (a b : Path) : Bool := a.steps == b.steps

@[simp] theorem same_self (a : Path) : a.same a = true := by simp [same]

/-- The last component, if it is a name. -/
def fileName? (p : Path) : Option String :=
  match p.steps.getLast? with
  | some (.name text) => some text
  | _ => none

/-- The part of the file name after its last dot. A name whose only dot comes first has none. -/
def extension? (p : Path) : Option String := do
  let name ← p.fileName?
  let back := name.toList.reverse
  match back.dropWhile (· != '.') with
  | [] => none
  | [_] => none
  | _ => some (String.ofList (back.takeWhile (· != '.')).reverse)

/-- Whether a path can only name a directory: it ends in a separator or in a `.` step. -/
def namesDirectory (p : Path) : Bool :=
  match (p.text.toList.splitOn '/').getLast? with
  | some [] => true
  | some ['.'] => true
  | _ => false

end Path

end FloatLang
