import Blockwork.Compile.Chain

/-! # Programs

All chains that start with the program form the main function; every defining chain is a function of
its own. A chain that fails does not keep the others from being checked. -/

namespace Blockwork

namespace Compile

/-! ### Declarations -/

def paramOwners (p : Program) : List (String × String) :=
  (p.blockdefs.flatMap fun d => d.params.map fun param => (param, d.id)).reverse

structure Definition where
  chain : Nat
  blockdef : String
  deriving DecidableEq, Repr

def chainsHeaded (p : Program) (id : String) : List (Nat × Chain) :=
  (p.chains.zipIdx.map fun (c, i) => (i, c)).filter fun (_, c) =>
    match c.head? with
    | some b => b.id == id
    | none => false

def namedBlockdef? (c : Chain) : Option String :=
  match c.head?.map Block.args with
  | some (.blockdef id :: _) => some id
  | _ => none

def declareBlock (p : Program) (known : List FunctionDecl) (index : Nat) (id : String) :
    Except CompileError FunctionDecl :=
  let loc : Location := ⟨index, [0]⟩
  match p.findBlockdef? id with
  | none => .error ⟨.unknownBlockdef id, some loc⟩
  | some d =>
    if known.any (·.id == id) then .error ⟨.definedTwice id, some loc⟩
    else if d.params.length > maxParameters then
      .error ⟨.tooManyParameters d.params.length, some loc⟩
    else .ok ⟨id, d.params⟩

/-- Declare the blocks that chains define, after those already known. A hat block without a template
is left for lowering to report. -/
def declareFrom (p : Program) :
    List (Nat × Chain) → List FunctionDecl → Except CompileError (List FunctionDecl × List Definition)
  | [], known => .ok (known, [])
  | (index, c) :: rest, known =>
    match namedBlockdef? c with
    | none => do
      let (functions, definitions) ← declareFrom p rest known
      return (functions, ⟨index, ""⟩ :: definitions)
    | some id => do
      let d ← declareBlock p known index id
      let (functions, definitions) ← declareFrom p rest (known ++ [d])
      return (functions, ⟨index, id⟩ :: definitions)

def declare (p : Program) : Except CompileError (List FunctionDecl × List Definition) :=
  declareFrom p (chainsHeaded p "define_block") []

/-! ### Functions -/

structure Globals where
  declared : Array Variable := #[]
  cells : Nat := 0
  deriving DecidableEq, Inhabited

def startState (g : Globals) (params : Nat) : LowerState :=
  { nextReg := params, globals := g.declared, cells := g.cells }

def globalsOf (s : LowerState) : Globals :=
  ⟨s.globals, s.cells⟩

def codeOf (s : LowerState) : FunctionCode :=
  ⟨s.nextReg, s.scopes.slots.size, s.code.toList⟩

open Lower in
def beginMain : Lower Unit := do
  perform .rootSave []
  openRoots ⟨0, [0]⟩

open Lower in
/-- End a function: close its root scope, return to the caller's roots and leave with nothing. -/
def finish (loc : Location) : Lower Unit := do
  let body ← closeRoots loc
  emitAll body
  if (← get).scopes.rootDepth ≠ 0 then fail .scopeOverflow loc
  else
    perform .rootRestore []
    match (← read).kind with
    | .main => emit (.ret none)
    | .user _ => do emit (.ret (some (← call .anyNothing [])))

def mainChains (env : LowerEnv) :
    List (Nat × Chain) → LowerState → Option (CompileError × List (Nat × Chain)) × LowerState
  | [], s => (none, s)
  | (index, c) :: rest, s =>
    match Lower.chain index c env s with
    | .ok _ s => mainChains env rest s
    | .error e s => (some (e, rest), s)

def checkChain (env : LowerEnv) (index : Nat) (c : Chain) (g : Globals) :
    Option CompileError × Globals :=
  match (do beginMain; Lower.chain index c : Lower Unit) env (startState g 0) with
  | .ok _ s => (none, globalsOf s)
  | .error e s => (some e, globalsOf s)

def checkChains (env : LowerEnv) : List (Nat × Chain) → Globals → List CompileError × Globals
  | [], g => ([], g)
  | (index, c) :: rest, g =>
    let (e, g) := checkChain env index c g
    let (es, g) := checkChains env rest g
    (e.toList ++ es, g)

def lowerMain (env : LowerEnv) (chains : List (Nat × Chain)) :
    Except (CompileError × List CompileError) FunctionCode × Globals :=
  match beginMain env (startState {} 0) with
  | .error e s => (.error (e, []), globalsOf s)
  | .ok _ s =>
    match mainChains env chains s with
    | (some (e, rest), s) =>
      let (es, g) := checkChains env rest (globalsOf s)
      (.error (e, es), g)
    | (none, s) =>
      match finish ⟨0, [0]⟩ env s with
      | .ok _ s => (.ok (codeOf s), globalsOf s)
      | .error e s => (.error (e, []), globalsOf s)

def lowerDefinition (env : LowerEnv) (p : Program) (d : Definition) (g : Globals) :
    Except CompileError FunctionCode × Globals :=
  let params :=
    match Lower.findFunction? env.functions d.blockdef with
    | some (_, f) => f.params.length
    | none => 0
  let env := { env with kind := .user d.blockdef }
  let chain := p.chains.getD d.chain ⟨[]⟩
  match (do Lower.chain d.chain chain; finish ⟨d.chain, [0]⟩ : Lower Unit) env (startState g params) with
  | .ok _ s => (.ok (codeOf s), globalsOf s)
  | .error e s => (.error e, globalsOf s)

def lowerDefinitions (env : LowerEnv) (p : Program) :
    List Definition → Globals → List FunctionCode × List CompileError × Globals
  | [], g => ([], [], g)
  | d :: rest, g =>
    let (r, g) := lowerDefinition env p d g
    let (codes, errors, g) := lowerDefinitions env p rest g
    match r with
    | .ok code => (code :: codes, errors, g)
    | .error e => (codes, e :: errors, g)

end Compile

/-- What compiling a program gives: the code or the first error, and every error recorded. An error
in a declaration is not recorded. -/
structure Compilation where
  result : Except CompileError ProgramCode
  errors : List CompileError

open Compile in
def Program.compile (p : Program) (keepScopes : Bool := false) : Compilation :=
  match declare p with
  | .error e => ⟨.error e, []⟩
  | .ok (functions, definitions) =>
    let env : LowerEnv := ⟨.main, functions, paramOwners p, keepScopes⟩
    let (main, g) := lowerMain env (chainsHeaded p "on_start")
    let (codes, later, g) := lowerDefinitions env p definitions g
    match main with
    | .error (e, es) => ⟨.error e, e :: es ++ later⟩
    | .ok main =>
      match later with
      | e :: _ => ⟨.error e, later⟩
      | [] => ⟨.ok ⟨main, codes.toArray, g.cells⟩, []⟩

end Blockwork
