import Enquanto.Module.Arena

/-!
# Modules

A module is a program laid out flat: the arena of its nodes, the functions that it declares, the
links between its scopes, and its instructions in order. Every function has a scope of its own.

* `Functions.resolve` finds the latest function of a name;
* `Scopes.legacy` is the scope that a name is looked up in next; the root scope is its own legacy.
-/

namespace Enquanto

/-- A function. Its body is missing from its declaration until it is set. -/
structure Function where
  name : Name
  params : List Name
  body : Option ExprId
  scope : ScopeId
  span : Span
  deriving DecidableEq, Repr

namespace Function

def arity (f : Function) : Nat := f.params.length

/-- How a function is written in a listing: its name and its parameters. -/
def signature (f : Function) (names : Names) : String :=
  names.text f.name ++ "(" ++ ", ".intercalate (f.params.map names.text) ++ ")"

end Function

/-- The functions of a module in order of declaration. -/
structure Functions where
  entries : Array Function := #[]
  deriving DecidableEq, Repr

namespace Functions

def size (fs : Functions) : Nat := fs.entries.size

def get? (fs : Functions) (id : FunctionId) : Option Function := fs.entries[id.index]?

/-- Appends a function that has no body yet. -/
def declare (fs : Functions) (name : Name) (params : List Name) (scope : ScopeId) (span : Span) :
    FunctionId × Functions :=
  (⟨fs.entries.size⟩, ⟨fs.entries.push ⟨name, params, none, scope, span⟩⟩)

/-- Gives a function its body; an id without a function changes nothing. -/
def setBody (fs : Functions) (id : FunctionId) (body : ExprId) : Functions :=
  ⟨fs.entries.modify id.index fun f => { f with body := some body }⟩

/-- The last of the functions with a given name. -/
def resolve (fs : Functions) (name : Name) : Option FunctionId :=
  (fs.entries.toList.reverse.findIdx? (·.name == name)).map fun i => ⟨fs.entries.size - 1 - i⟩

end Functions

/-- The scopes of a module, each by its legacy. -/
structure Scopes where
  links : Array ScopeId
  deriving DecidableEq, Repr

namespace Scopes

/-- The root scope only. -/
def initial : Scopes := ⟨#[ScopeId.root]⟩

instance : Inhabited Scopes := ⟨initial⟩

def size (s : Scopes) : Nat := s.links.size

/-- Appends a scope with the given legacy. -/
def add (s : Scopes) (legacy : ScopeId) : ScopeId × Scopes :=
  (⟨s.links.size⟩, ⟨s.links.push legacy⟩)

/-- The legacy of a scope; an unknown scope falls back to the root. -/
def legacy (s : Scopes) (scope : ScopeId) : ScopeId := s.links.getD scope.index .root

/-- Whether look-up ends at a scope. -/
def isRoot (s : Scopes) (scope : ScopeId) : Bool := s.legacy scope == scope

end Scopes

/-- An instruction of a module. -/
inductive Step where
  | command (id : CommandId)
  | declare (id : FunctionId)
  deriving DecidableEq, Repr

/-- A program laid out flat. -/
structure Module where
  arena : Arena := {}
  functions : Functions := {}
  scopes : Scopes := .initial
  steps : Array Step := #[]
  deriving DecidableEq, Repr

namespace Module

instance : Inhabited Module := ⟨{}⟩

/-- The top-level commands in order. -/
def commands (m : Module) : List CommandId :=
  m.steps.toList.filterMap fun
    | .command id => some id
    | .declare _ => none

end Module

end Enquanto
