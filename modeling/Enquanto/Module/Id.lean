/-!
# Ids

A flat module keeps its parts in tables and refers to them by their place. An id says which table
it belongs to; a slice is a run of entries of a table of lists.
-/

namespace Enquanto

/-- The tables of a module that ids point into. -/
inductive Table where
  | exprs | preds | commands | functions | scopes
  deriving DecidableEq, Repr

/-- A place in one of the tables of a module. -/
structure TableId (table : Table) where
  index : Nat
  deriving DecidableEq, Repr, Inhabited

abbrev ExprId := TableId .exprs
abbrev PredId := TableId .preds
abbrev CommandId := TableId .commands
abbrev FunctionId := TableId .functions
abbrev ScopeId := TableId .scopes

/-- The scope of the global variables. -/
def ScopeId.root : ScopeId := ⟨0⟩

/-- A run of `count` entries of a table of lists, from `start` on. -/
structure Slice where
  start : Nat
  count : Nat
  deriving DecidableEq, Repr, Inhabited

/-- The entries of a slice, if the table reaches that far. -/
def Slice.of? {α : Type} (slice : Slice) (table : Array α) : Option (List α) :=
  if slice.start + slice.count ≤ table.size then
    some (table.extract slice.start (slice.start + slice.count)).toList
  else none

end Enquanto
