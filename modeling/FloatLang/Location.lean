import FloatLang.Path

/-!
# Locations

Offsets, lines and columns count from zero; offsets and columns count bytes. A location that
belongs to no source is written with the largest line and column.

## Main definitions

* `Position`, `Position.next`, `Position.after` — a place in a text, and how characters move it
* `Location` — a place in a named file
* `Location.unknown`, `Location.isUnknown` — the location of what has no place
* `Location.compare`, `Location.same` — the order of locations, files first
-/

namespace FloatLang

/-- A place in a text. -/
structure Position where
  offset : Nat := 0
  line : Nat := 0
  column : Nat := 0
  deriving DecidableEq, Repr, Inhabited

namespace Position

/-- The place one character further on: a line break starts a new line. -/
def next (p : Position) (c : Char) : Position :=
  if c = '\n' then ⟨p.offset + 1, p.line + 1, 0⟩ else ⟨p.offset + 1, p.line, p.column + 1⟩

/-- The place after a stretch of characters. -/
def after (p : Position) (text : List Char) : Position := text.foldl next p

@[simp] theorem after_nil (p : Position) : p.after [] = p := rfl

@[simp] theorem after_cons (p : Position) (c : Char) (text : List Char) :
    p.after (c :: text) = (p.next c).after text := rfl

theorem after_append (p : Position) (s t : List Char) :
    p.after (s ++ t) = (p.after s).after t := List.foldl_append

/-- Positions sort by offset, then line, then column. -/
def compare (a b : Position) : Ordering :=
  ((Ord.compare a.offset b.offset).then (Ord.compare a.line b.line)).then
    (Ord.compare a.column b.column)

end Position

/-- A place in a file. -/
structure Location extends Position where
  file : Path
  deriving DecidableEq, Repr, Inhabited

namespace Location

/-- The start of a file. -/
def startOf (file : Path) : Location := { file := file }

/-- The number that stands for a line or column nobody knows. -/
def nowhere : Nat := UInt64.size - 1

/-- The location of what was written in no source. -/
def unknown : Location := ⟨⟨nowhere, nowhere, nowhere⟩, ⟨"unknown"⟩⟩

/-- A location is unknown when neither its line nor its column is known. -/
def isUnknown (l : Location) : Bool := l.line == nowhere && l.column == nowhere

/-- Locations are shown with lines and columns counted from one. -/
def text (l : Location) : String :=
  if l.isUnknown then "unknown"
  else l.file.text ++ ":" ++ toString (l.line + 1) ++ ":" ++ toString (l.column + 1)

instance : ToString Location := ⟨text⟩

/-- Locations sort by file, then by position. -/
def compare (a b : Location) : Ordering :=
  (a.file.compare b.file).then (a.toPosition.compare b.toPosition)

/-- The same position of the same file. -/
def same (a b : Location) : Bool := a.file.same b.file && a.toPosition == b.toPosition

@[simp] theorem same_self (l : Location) : l.same l = true := by simp [same]

end Location

end FloatLang
