import Enquanto.Interpret
import Enquanto.Proofs.ParserTranslation
import Enquanto.Proofs.Renaming
import Enquanto.Proofs.Simulation
import Enquanto.Proofs.Tokenisation
import Mathlib.Data.Set.Function

/-!
# The history of a table of names

A source may be read with any table of names, whatever was interned before. Its tokens then have
other numbers for the same strings, and nothing but strings is ever shown.

* `Names.Holds`: the name that a table has for a string; interning never changes it;
* `Token.internAll_named` and `TokenKind.Named.translates`: tokens that are interned in two tables
  are translations of each other;
* `Module.Renamed`: two modules that differ in the numbers of their names only, and show the same in
  every run;
* `Module.parse_names`: a source that is read with two tables gives the same error or such modules.
-/

namespace Enquanto

open Run

/-! ## Strings in a table -/

namespace Names

variable {names names' : Names} {string : String} {x x' : Name}

/-- The string is in the table, under this name: interning it finds it. -/
def Holds (names : Names) (string : String) (x : Name) : Prop := intern string names = (x, names)

theorem holds_iff :
    names.Holds string x ↔ names.strings.findIdx? (· == string) = some x.index := by
  unfold Holds intern
  split
  · rename_i index h
    constructor
    · rintro ⟨⟩
      exact h
    · intro hx
      cases h.symm.trans hx
      rfl
  · rename_i h
    constructor
    · intro he
      have hsize := congrArg (fun entry => entry.2.strings.size) he
      simp at hsize
    · intro hx
      cases h.symm.trans hx

theorem holds_intern (string : String) (names : Names) :
    (intern string names).2.Holds string (intern string names).1 := by
  rw [holds_iff]
  unfold intern
  split
  · assumption
  · rename_i h
    rw [Array.findIdx?_push, h]
    simp

/-- A string keeps its name when others are interned. -/
theorem Holds.intern (h : names.Holds string x) (other : String) :
    (Names.intern other names).2.Holds string x := by
  rw [holds_iff] at h ⊢
  unfold Names.intern
  split
  · exact h
  · rw [Array.findIdx?_push, h]
    rfl

theorem Holds.text_eq (h : names.Holds string x) : names.text x = string := by
  have htext := text_intern string names
  rwa [h] at htext

/-- Both tables have the name for the same string. -/
def SameString (names names' : Names) (x x' : Name) : Prop :=
  ∃ string, names.Holds string x ∧ names'.Holds string x'

theorem SameString.text_eq (h : SameString names names' x x') : names.text x = names'.text x' := by
  obtain ⟨string, hx, hx'⟩ := h
  rw [hx.text_eq, hx'.text_eq]

theorem SameString.eq_iff {y y' : Name} (hx : SameString names names' x x')
    (hy : SameString names names' y y') : x = y ↔ x' = y' := by
  obtain ⟨string, hx, hx'⟩ := hx
  obtain ⟨other, hy, hy'⟩ := hy
  constructor
  · rintro rfl
    rw [← hx.text_eq, hy.text_eq, Holds, hy'] at hx'
    exact (congrArg Prod.fst hx').symm
  · rintro rfl
    rw [← hx'.text_eq, hy'.text_eq, Holds, hy] at hx
    exact (congrArg Prod.fst hx).symm

/-- The name of the same string in another table. -/
def carry (names names' : Names) (x : Name) : Name := (intern (names.text x) names').1

theorem SameString.carry_eq (h : SameString names names' x x') : x' = carry names names' x := by
  obtain ⟨string, hx, hx'⟩ := h
  rw [carry, hx.text_eq, hx']

/-- All strings of the first table have the same names in the second one. -/
def Keeps (names names' : Names) : Prop :=
  ∀ string x, names.Holds string x → names'.Holds string x

theorem Keeps.refl (names : Names) : names.Keeps names := fun _ _ h => h

end Names

/-! ## Interned tokens -/

/-- The second kind is the first one with its spelling replaced by its name in the table. -/
inductive TokenKind.Named (names : Names) : TokenKind String → TokenKind Name → Prop
  | integer (magnitude : UInt32) : Named names (.integer magnitude) (.integer magnitude)
  | text {content : String} {x : Name} : names.Holds content x →
    Named names (.text content) (.text x)
  | identifier {name : String} {x : Name} : names.Holds name x →
    Named names (.identifier name) (.identifier x)
  | keyword (k : Keyword) : Named names (.keyword k) (.keyword k)
  | symbol (s : Symbol) : Named names (.symbol s) (.symbol s)
  | invalid : Named names .invalid .invalid
  | endOfFile : Named names .endOfFile .endOfFile

structure Token.Named (names : Names) (token : Token String) (token' : Token Name) : Prop where
  kind : token.kind.Named names token'.kind
  span : token'.span = token.span

namespace TokenKind

theorem intern_keeps (kind : TokenKind String) (names : Names) :
    names.Keeps (kind.intern.run names).2 := by
  cases kind with
  | text content => exact fun _ _ h => h.intern content
  | identifier name => exact fun _ _ h => h.intern name
  | _ => exact .refl names

/-- An interned spelling has its name in every later table. -/
theorem intern_named (kind : TokenKind String) {names names' : Names}
    (h : (kind.intern.run names).2.Keeps names') :
    kind.Named names' (kind.intern.run names).1 := by
  cases kind with
  | text content => exact .text (h _ _ (Names.holds_intern content names))
  | identifier name => exact .identifier (h _ _ (Names.holds_intern name names))
  | _ => constructor

/-- Names of one spelling in two tables are translations of each other. -/
theorem Named.translates {τ : Translation} {names names' : Names} {kind : TokenKind String}
    {k k' : TokenKind Name} (hτ : ∀ {x x'}, names.SameString names' x x' → τ.name x x')
    (h : kind.Named names k) (h' : kind.Named names' k') : k.Translates τ k' := by
  cases h with
  | text hx =>
    cases h' with
    | text hx' => exact .text (hτ ⟨_, hx, hx'⟩)
  | identifier hx =>
    cases h' with
    | identifier hx' => exact .identifier (hτ ⟨_, hx, hx'⟩)
  | _ =>
    cases h'
    constructor

end TokenKind

namespace Token

theorem internAll_keeps (tokens : List (Token String)) (names : Names) :
    names.Keeps (internAll tokens names).2 := by
  induction tokens generalizing names with
  | nil => exact .refl names
  | cons token tokens ih =>
    rw [internAll_cons]
    exact fun string x h => ih _ string x (token.kind.intern_keeps names string x h)

/-- The spellings of tokens have their names in every later table. -/
theorem internAll_named (tokens : List (Token String)) {names names' : Names}
    (h : (internAll tokens names).2.Keeps names') :
    List.Forall₂ (Token.Named names') tokens (internAll tokens names).1 := by
  induction tokens generalizing names with
  | nil => exact .nil
  | cons token tokens ih =>
    rw [internAll_cons] at h ⊢
    refine .cons ⟨token.kind.intern_named fun string x hx => ?_, rfl⟩ (ih h)
    exact h string x (internAll_keeps tokens _ string x hx)

end Token

/-! ## Two readings -/

/-- Names stand for the same string in both tables, all else for itself. -/
def Translation.ofNames (names names' : Names) : Translation := ⟨names.SameString names', Eq, Eq⟩

theorem Translation.reads_ofNames (names names' : Names) : (ofNames names names').Reads where
  name_iff hx hy := hx.eq_iff hy
  function _ := rfl
  nowhere := rfl
  merge := by
    rintro s _ t _ rfl rfl
    rfl
  point := by
    rintro s _ rfl
    rfl

theorem Translation.renames_ofNames (names names' : Names) :
    (ofNames names names').Renames (names.carry names') where
  name hx := hx.carry_eq
  function h := h.symm
  span h := h.symm

/-- The same tokens, with their names in two tables. -/
theorem Token.translates_of_named {names names' : Names} {tokens : List (Token String)}
    {ts ts' : List (Token Name)} (h : List.Forall₂ (Token.Named names) tokens ts)
    (h' : List.Forall₂ (Token.Named names') tokens ts') :
    List.Forall₂ (Token.Translates (.ofNames names names')) ts ts' :=
  (forall₂_comp h.flip h').imp fun _ _ ⟨_, ht, ht'⟩ =>
    ⟨ht.kind.translates (fun hx => hx) ht'.kind, ht.span.trans ht'.span.symm⟩

theorem Token.translates_internAll (tokens : List (Token String)) (names names' : Names) :
    List.Forall₂
      (Token.Translates (.ofNames (internAll tokens names).2 (internAll tokens names').2))
      (internAll tokens names).1 (internAll tokens names').1 :=
  translates_of_named (internAll_named tokens (.refl _)) (internAll_named tokens (.refl _))

/-! ## Resolved frames -/

namespace Environment

/-- The frames, with strings for names. -/
def resolve (names : Names) (env : Environment) : List (ScopeId × List (String × Int32)) :=
  env.frames.toList.map fun frame =>
    (frame.legacy, frame.vars.map fun entry => (names.text entry.1, entry.2))

theorem getElem?_resolve {names : Names} {env : Environment}
    (hlegacy : ∀ scope, env.legacy scope = .root) (i : Nat) :
    (env.resolve names)[i]? = (env.vars? ⟨i⟩).map fun vars =>
      (ScopeId.root, vars.map fun entry => (names.text entry.1, entry.2)) := by
  have h := hlegacy ⟨i⟩
  unfold legacy at h
  unfold resolve vars?
  rw [List.getElem?_map, Array.getElem?_toList]
  cases hf : env.frames[i]? with
  | none => rfl
  | some frame =>
    rw [hf] at h
    rw [Option.map_some, Option.map_some, Option.map_some, ← h]

namespace Translates

variable {τ : Translation} {names names' : Names} {env env' : Environment}

/-- Frames that are translations of each other show the same strings and values. -/
theorem getElem?_resolve_eq (h : env.Translates τ env')
    (htext : ∀ {x x'}, τ.name x x' → names.text x = names'.text x') {i i' : Nat}
    (hscope : τ.Scope ⟨i⟩ ⟨i'⟩) : (env.resolve names)[i]? = (env'.resolve names')[i']? := by
  have hvars := h.vars hscope
  rw [getElem?_resolve h.legacy, getElem?_resolve h.legacy']
  generalize env.vars? ⟨i⟩ = o at hvars
  generalize env'.vars? ⟨i'⟩ = o' at hvars
  cases hvars with
  | none => rfl
  | some hvars =>
    refine congrArg (fun vars => some (ScopeId.root, vars)) ?_
    induction hvars with
    | nil => rfl
    | cons hb _ ih => rw [List.map_cons, List.map_cons, htext hb.1, hb.2, ih]

/-- Environments whose functions have the same numbers show the same in every frame. -/
theorem resolve_eq (h : env.Translates τ env') (hfunction : ∀ f, τ.function f f)
    (htext : ∀ {x x'}, τ.name x x' → names.text x = names'.text x') :
    env.resolve names = env'.resolve names' := by
  apply List.ext_getElem?
  intro i
  have hscope : τ.Scope ⟨i⟩ ⟨i⟩ := by
    cases i with
    | zero => exact .root
    | succ i => exact .function (hfunction ⟨i⟩)
  exact h.getElem?_resolve_eq htext hscope

end Translates

end Environment

/-! ## The same for every history -/

/-- States that show the same once names are resolved: the same values of the same variables, the
same output, and the same input left. -/
structure State.SameText (names names' : Names) (s t : State) : Prop where
  frames : s.env.resolve names = t.env.resolve names'
  output : s.output = t.output
  input : s.input = t.input

/-- Two modules, each with its names, that differ in the numbers of names only. -/
structure Module.Renamed (names names' : Names) (m m' : Module) : Prop where
  /-- The names that the modules use are in bijection; their strings are the same. -/
  rename : ∃ ρ : Name → Name, Set.BijOn ρ {x | x ∈ m.names} {x | x ∈ m'.names} ∧
    (∀ x, x ∈ m.names → names'.text (ρ x) = names.text x) ∧ m' = m.rename ρ
  /-- Runs from fresh environments stop for the same reason, at the same place, in states that show
  the same. -/
  run : ∀ (maxDepth fuel : Nat) (input : Input),
    Agree (State.SameText names names') (State.SameText names names')
      (Machine.run ⟨names, m, maxDepth⟩ fuel (Machine.start m input))
      (Machine.run ⟨names', m', maxDepth⟩ fuel (Machine.start m' input))

/-- The same error, or modules that differ in the numbers of names only. -/
inductive Module.SameReading :
    Except ParseError Module × Names → Except ParseError Module × Names → Prop
  | error (e : ParseError) (names names' : Names) : SameReading (.error e, names) (.error e, names')
  | ok {m m' : Module} {names names' : Names} : Module.Renamed names names' m m' →
    SameReading (.ok m, names) (.ok m', names')

/-- Runs of modules with translated names. -/
theorem Run.Outcomes.agree {α : Type} {names names' : Names}
    {x y : EStateM.Result Halt State α}
    (h : Outcomes (.ofNames names names') (State.Translates (.ofNames names names')) x y) :
    Agree (State.SameText names names') (State.SameText names names') x y := by
  have hstate : ∀ {s t : State}, s.Translates (.ofNames names names') t →
      s.SameText names names' t :=
    fun hst => ⟨hst.env.resolve_eq (fun _ => rfl) fun hx => hx.text_eq, hst.output, hst.input⟩
  cases h with
  | ok hst => exact .ok (hstate hst)
  | error hhalt hst =>
    cases hhalt with
    | fault hspan =>
      cases hspan with
      | none => exact .error (hstate hst)
      | some hs =>
        cases hs
        exact .error (hstate hst)
    | dangling => exact .error (hstate hst)
    | outOfFuel => exact .error (hstate hst)

/-- Programs that were read with two tables, and are translations of each other. -/
theorem Module.renamed_ofProgram {names names' : Names} {tokens tokens' : List (Token Name)}
    {program program' : Program} (hp : Program.parse names tokens = .ok program)
    (hp' : Program.parse names' tokens' = .ok program')
    (h : List.Forall₂ (Instruction.Translates (.ofNames names names')) program program') :
    Renamed names names' (.ofProgram program) (.ofProgram program') where
  rename := by
    have hρ := Translation.renames_ofNames names names'
    have hrename := ofProgram_rename hρ h
    have hsame {x : Name} (hx : x ∈ (ofProgram program).names) :
        names.SameString names' x (names.carry names' x) := name_of_mem_names hρ h hx
    have hmem : ∀ y, y ∈ (ofProgram program').names ↔
        ∃ x ∈ (ofProgram program).names, names.carry names' x = y := by
      intro y
      rw [hrename, names_rename, List.mem_map]
    refine ⟨names.carry names', ⟨fun x hx => ?_, fun x hx y hy hxy => ?_, fun y hy => ?_⟩,
      fun x hx => (hsame hx).text_eq.symm, hrename⟩
    · exact (hmem _).mpr ⟨x, hx, rfl⟩
    · exact ((hsame hx).eq_iff (hsame hy)).mpr hxy
    · exact (hmem y).mp hy
  run := by
    intro maxDepth fuel input
    have hτ : (Translation.ofNames names names').Injective :=
      ⟨fun hx hy => hx.eq_iff hy, by
        rintro f _ g _ rfl rfl
        exact Iff.rfl⟩
    have hm : Machine.Serves ⟨names, .ofProgram program, maxDepth⟩ ⟨names, program, maxDepth⟩ :=
      Machine.serves_ofProgram hp maxDepth
    have hm' : Machine.Serves ⟨names', .ofProgram program', maxDepth⟩
        ⟨names', program', maxDepth⟩ := Machine.serves_ofProgram hp' maxDepth
    have hw : Setting.Translates (.ofNames names names') ⟨names, program, maxDepth⟩
        ⟨names', program', maxDepth⟩ :=
      Setting.translates_of_forall₂ (fun hx => hx.text_eq) rfl (fun hf => hf) h
    have hlength := (Program.declarations_translate h).length_eq
    have hfunction : ∀ {f f' : FunctionId}, f = f' →
        (f.index < program.declarations.length ↔ f'.index < program'.declarations.length) := by
      rintro f _ rfl
      rw [hlength]
    exact (Machine.run_start_similar hτ hm hm' hw (Program.commands_translate h) hfunction fuel
      input).agree

/-- Whatever was interned before, a source is read alike: with the same error, or as modules that
are the same but for the numbers of their names and that show the same in every run. -/
theorem Module.parse_names (source : String) (names names' : Names) :
    SameReading (Module.parse source names) (Module.parse source names') := by
  have htokens := Token.translates_internAll (Lexer.tokens source) names names'
  have hprograms := Program.parse_translates (Translation.reads_ofNames _ _)
    (fun hx => hx.text_eq) htokens
  unfold Module.parse lex
  generalize Token.internAll (Lexer.tokens source) names = interned at hprograms ⊢
  generalize Token.internAll (Lexer.tokens source) names' = interned' at hprograms ⊢
  obtain ⟨tokens, table⟩ := interned
  obtain ⟨tokens', table'⟩ := interned'
  change SameReading ((Program.parse table tokens).map ofProgram, table)
    ((Program.parse table' tokens').map ofProgram, table')
  generalize hp : Program.parse table tokens = p at hprograms ⊢
  generalize hp' : Program.parse table' tokens' = p' at hprograms ⊢
  cases hprograms with
  | @error e e' h =>
    obtain ⟨cause, span⟩ := e
    obtain ⟨cause', span'⟩ := e'
    obtain ⟨rfl, rfl⟩ := h
    exact .error _ _ _
  | ok h => exact .ok (renamed_ofProgram hp hp' h)

end Enquanto
