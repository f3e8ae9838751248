import Enquanto.Module

/-!
# Environments

An environment is a list of frames, one for each scope. A frame holds the variables stored in its
scope, and links to the frame that a name is looked up in next, its legacy. The root frame is its
own legacy.

* `Environment.store` writes to the frame of a scope and to no other;
* `Environment.lookup` follows the links to the first frame that holds the name, and reads 0 when
  there is none. Links may lead anywhere: a walk takes at most one step for each frame, which is
  enough to see all frames on it.

A scope without a frame stands for the root.
-/

namespace Enquanto

/-- The variables of a scope. -/
structure Frame where
  legacy : ScopeId
  vars : List (Name × Int32) := []
  deriving DecidableEq, Repr

namespace Frame

/-- The value of a variable in this frame. -/
def get? (frame : Frame) (name : Name) : Option Int32 := frame.vars.lookup name

/-- The variables with the value of one of them replaced, or with a new one at the end. -/
def assign (name : Name) (value : Int32) : List (Name × Int32) → List (Name × Int32)
  | [] => [(name, value)]
  | entry :: rest =>
    if entry.1 = name then (name, value) :: rest else entry :: assign name value rest

/-- Stores a variable in this frame. -/
def set (frame : Frame) (name : Name) (value : Int32) : Frame :=
  { frame with vars := assign name value frame.vars }

@[simp] theorem legacy_set (frame : Frame) (name : Name) (value : Int32) :
    (frame.set name value).legacy = frame.legacy := rfl

theorem lookup_assign (name other : Name) (value : Int32) (vars : List (Name × Int32)) :
    (assign name value vars).lookup other =
      if other = name then some value else vars.lookup other := by
  induction vars with
  | nil =>
    by_cases h : other = name
    · simp [assign, h]
    · simp [assign, List.lookup_cons, h, beq_eq_false_iff_ne.mpr h]
  | cons entry rest ih =>
    obtain ⟨key, v⟩ := entry
    by_cases hk : key = name
    · subst hk
      by_cases h : other = key
      · simp [assign, h]
      · simp [assign, List.lookup_cons, h, beq_eq_false_iff_ne.mpr h]
    · by_cases h : other = key
      · subst h
        simp [assign, hk]
      · simp [assign, List.lookup_cons, hk, beq_eq_false_iff_ne.mpr h, ih]

theorem get?_set (frame : Frame) (name other : Name) (value : Int32) :
    (frame.set name value).get? other = if other = name then some value else frame.get? other :=
  lookup_assign name other value frame.vars

end Frame

/-- Frames by scope. -/
structure Environment where
  frames : Array Frame
  deriving DecidableEq, Repr

namespace Environment

/-- The root frame only. -/
def initial : Environment := ⟨#[⟨.root, []⟩]⟩

instance : Inhabited Environment := ⟨initial⟩

/-- An empty frame for every scope of a module. -/
def ofScopes (scopes : Scopes) : Environment := ⟨scopes.links.map fun legacy => ⟨legacy, []⟩⟩

def size (env : Environment) : Nat := env.frames.size

/-- Appends an empty frame. -/
def push (env : Environment) (legacy : ScopeId) : ScopeId × Environment :=
  (⟨env.frames.size⟩, ⟨env.frames.push ⟨legacy, []⟩⟩)

/-- The scope itself if it has a frame, and else the root. -/
def clamp (env : Environment) (scope : ScopeId) : ScopeId :=
  if scope.index < env.frames.size then scope else .root

/-- The value of a variable in the frame of a scope itself. -/
def getLocal? (env : Environment) (scope : ScopeId) (name : Name) : Option Int32 :=
  env.frames[scope.index]?.bind (·.get? name)

/-- The legacy of a scope; without a frame it is the root. -/
def legacy (env : Environment) (scope : ScopeId) : ScopeId :=
  match env.frames[scope.index]? with
  | some frame => frame.legacy
  | none => .root

/-- The value that a walk of at most `steps` frames finds. -/
def lookupFrom (env : Environment) (name : Name) : Nat → ScopeId → Int32
  | 0, _ => 0
  | steps + 1, scope =>
    match env.frames[scope.index]? with
    | none => 0
    | some frame =>
      match frame.get? name with
      | some value => value
      | none => if frame.legacy = scope then 0 else lookupFrom env name steps frame.legacy

/-- The value of a variable as seen from a scope. -/
def lookup (env : Environment) (scope : ScopeId) (name : Name) : Int32 :=
  env.lookupFrom name env.frames.size (env.clamp scope)

/-- Stores a variable in the frame of a scope. -/
def store (env : Environment) (scope : ScopeId) (name : Name) (value : Int32) : Environment :=
  ⟨env.frames.modify (env.clamp scope).index (·.set name value)⟩

@[simp] theorem size_store (env : Environment) (scope : ScopeId) (name : Name) (value : Int32) :
    (env.store scope name value).size = env.size := by
  simp [store, size]

/-- A store changes one variable of one frame. -/
theorem getLocal?_store (env : Environment) (scope other : ScopeId) (name key : Name)
    (value : Int32) (h : other.index < env.size) :
    (env.store scope name value).getLocal? other key =
      if other = env.clamp scope ∧ key = name then some value else env.getLocal? other key := by
  obtain ⟨i⟩ := other
  have hi : i < env.frames.size := h
  simp only [getLocal?, store, Array.getElem?_modify]
  by_cases hs : env.clamp scope = ⟨i⟩
  · by_cases hk : key = name <;>
      simp [hs, hk, Array.getElem?_eq_getElem hi, Frame.get?_set]
  · have hne : (env.clamp scope).index ≠ i := fun e => hs (by rw [← e])
    simp [hne, Ne.symm hs]

end Environment

end Enquanto
