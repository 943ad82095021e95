import FloatLang.Postfix
import FloatLang.Proofs.Tree.Relocation

/-!
# Relocation of expressions

Putting an expression into order and making a tree of it asks for no places. So with operators and
operands at other places the same happens, and the tree or the complaint comes out at other places.

## Main definitions

* `Postfix.Item.move`, `Postfix.Yard.move`, `Postfix.Frame.move` — operators and operands
* `Postfix.Complaint.move`, `Postfix.Settled.move` — outcomes

## Main results

* `Postfix.Yard.shift?_move` — a yard takes an operator
* `Postfix.assemble_move` — a tree is assembled
-/

namespace FloatLang.Postfix

variable (f : Relocation)

/-- The item at the place moved to. -/
def Item.move : Item → Item
  | .operand e => .operand (e.move f)
  | .operator op l => .operator op (f.place l)

/-- The operator that lacks operands at the place moved to. -/
def Frame.move : Frame → Frame
  | .last op l => .last op (f.place l)
  | .first op l right => .first op (f.place l) (right.move f)

/-- The complaint about the place moved to. -/
def Complaint.move (c : Complaint) : Complaint := ⟨f.place c.location, c.problem.move f⟩

/-- What is settled with operands at the places moved to. -/
def Settled.move : Settled → Settled
  | .root e => .root (e.move f)
  | .lacking frames => .lacking (frames.map (Frame.move f))

/-- The yard with its operators and operands at the places moved to. -/
def Yard.move (y : Yard) : Yard where
  waiting := y.waiting.map fun x => (x.1, f.place x.2)
  items := y.items.map (Item.move f)
  continues := y.continues

/-- An outcome at the places moved to. -/
def moveOutcome {α : Type} (g : α → α) : Except Complaint α → Except Complaint α
  | .ok a => .ok (g a)
  | .error c => .error (c.move f)

/-! ### Assembling -/

theorem settle_move (frames : List Frame) (e : Expr) :
    settle (frames.map (Frame.move f)) (e.move f) = moveOutcome f (Settled.move f) (settle frames e) := by
  induction frames generalizing e with
  | nil => rfl
  | cons frame frames ih =>
    cases frame with
    | first op l right => exact ih (.binary op e right l)
    | last op l =>
      rw [List.map_cons, Frame.move, settle, settle]
      split
      · rw [e.isReference_move f]
        split
        · rfl
        · exact ih (.unary op e l)
      · rfl

theorem runOut_move (start : Location) (frames : List Frame) :
    runOut (f.place start) (frames.map (Frame.move f)) = (runOut start frames).move f := by
  cases frames with
  | nil => rfl
  | cons frame frames => cases frame <;> rfl

theorem assembleWith_move (start : Location) (frames : List Frame) (items : List Item) :
    assembleWith (f.place start) (frames.map (Frame.move f)) (items.map (Item.move f)) =
      moveOutcome f (fun x => (x.1.move f, x.2.map (Item.move f)))
        (assembleWith start frames items) := by
  induction items generalizing frames with
  | nil => exact congrArg Except.error (runOut_move f start frames)
  | cons item items ih =>
    cases item with
    | operator op l => exact ih (.last op l :: frames)
    | operand e =>
      rw [List.map_cons, Item.move, assembleWith, assembleWith, settle_move]
      cases hsettle : settle frames e with
      | error c => rfl
      | ok outcome =>
        cases outcome with
        | root e => rfl
        | lacking frames => exact ih frames

/-- A tree is assembled in the same way at another place. -/
theorem assemble_move (start : Location) (items : List Item) :
    assemble (f.place start) (items.map (Item.move f)) =
      moveOutcome f (Expr.move f) (assemble start items) := by
  have hassemble := assembleWith_move f start [] items
  rw [List.map_nil] at hassemble
  unfold assemble
  rw [hassemble]
  cases assembleWith start [] items with
  | error c => rfl
  | ok answer =>
    obtain ⟨e, rest⟩ := answer
    cases rest with
    | nil => rfl
    | cons item rest => simp [moveOutcome, Complaint.move, Problem.move]

/-! ### Putting in order -/

theorem release_move (ops : List (Operator × Location)) (items : List Item) :
    release (ops.map fun x => (x.1, f.place x.2)) (items.map (Item.move f)) =
      (release ops items).map (Item.move f) := by
  induction ops generalizing items with
  | nil => rfl
  | cons x ops ih => exact ih (.operator x.1 x.2 :: items)

namespace Yard

variable (y : Yard) (op : Operator) (l : Location)

@[simp] theorem continues_move : (y.move f).continues = y.continues := rfl

theorem finish_move : (y.move f).finish = y.finish.map (Item.move f) := release_move f _ _

theorem openParentheses_move : (y.move f).openParentheses = y.openParentheses.map f.place := by
  simp [openParentheses, move, List.filter_map, Function.comp_def]

theorem infixed_move : (y.move f).infixed op (f.place l) = (y.infixed op l).move f := by
  simp only [infixed, move, List.takeWhile_map, List.dropWhile_map, Function.comp_def, release_move,
    List.map_cons]

theorem close?_move : (y.move f).close? = y.close?.map (move f) := by
  simp only [close?, move, List.takeWhile_map, List.dropWhile_map, Function.comp_def, release_move]
  cases y.waiting.dropWhile (·.1 != .leftParen) <;> rfl

/-- A yard takes an operator in the same way at another place. -/
theorem shift?_move : (y.move f).shift? op (f.place l) = (y.shift? op l).map (move f) := by
  have hcontinues (b : Bool) (o : Option Yard) :
      (o.map (move f)).map (fun y => { y with continues := b }) =
        (o.map (fun y => { y with continues := b })).map (move f) := by
    cases o <;> rfl
  unfold shift?
  dsimp only
  rw [← hcontinues]
  congr 1
  split
  · rfl
  · exact close?_move f y
  · rfl
  · rfl
  · rfl
  · exact congrArg some (infixed_move f y op l)

end Yard

end FloatLang.Postfix
