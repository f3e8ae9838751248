import Enquanto.Command

/-!
# Programs

A program is a list of instructions, each a command or the declaration of a function.
-/

namespace Enquanto

/-- A function declaration. Its span is that of its header, from `def` to `=`. -/
structure Declaration where
  name : Name
  params : List Name
  body : Expr
  span : Span
  deriving Repr

/-- A step of a program. -/
inductive Instruction where
  | command (command : Command)
  | declare (declaration : Declaration)
  deriving Repr

/-- A program: its instructions in order. -/
abbrev Program := List Instruction

end Enquanto
