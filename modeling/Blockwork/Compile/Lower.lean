import Blockwork.Compile.Scope
import Blockwork.Machine.Code
import Blockwork.Program.Catalog

/-! # Lowering
Code is appended to a buffer, registers are handed out in order, and scopes are tracked. A step that
fails keeps the state it reached: cells declared before the failure stay visible to the chains that
follow. -/

namespace Blockwork

structure FunctionDecl where
  id : String
  params : List String
  deriving DecidableEq, Repr, Inhabited

inductive FunctionKind where
  | main
  | user (blockdef : String)
  deriving DecidableEq, Repr

structure LowerEnv where
  kind : FunctionKind
  functions : List FunctionDecl := []
  /-- Templates that own a parameter, the last declared in front. -/
  paramOwners : List (String × String) := []
  /-- Keep root scopes that nothing needs. -/
  keepScopes : Bool := false
  deriving DecidableEq, Repr

/-- What an open scope needs at its end. The positions are offsets in the code buffer. -/
inductive Body where
  /-- The body runs when `run` holds; `handled` says whether this or an earlier branch ran. -/
  | branch (run handled : Reg)
  /-- The test starts at `start`; `flush` asks to drop its temporaries after each round. -/
  | whileLoop (start : Nat) (cond : Reg) (flush : Bool)
  | countLoop (count : Reg)
  | foreverLoop
  | plain
  deriving DecidableEq, Repr

structure LowerState where
  scopes : Scopes Body := {}
  code : Array Instr := #[]
  nextReg : Reg := 0
  globals : Array Variable := #[]
  cells : Nat := 0
  deriving Inhabited

abbrev Lower := ReaderT LowerEnv (EStateM CompileError LowerState)

namespace Lower

/-! ### Basic steps -/

def fail {α : Type} (cause : Cause) (loc : Location) : Lower α :=
  throw ⟨cause, some loc⟩

def tryScopes {β : Type} (f : Scopes Body → Scopes.Outcome Body β) : Lower β := fun _ s =>
  match s with
  | ⟨scopes, code, nextReg, globals, cells⟩ =>
    match f scopes with
    | (.ok b, scopes) => .ok b ⟨scopes, code, nextReg, globals, cells⟩
    | (.error e, scopes) => .error e ⟨scopes, code, nextReg, globals, cells⟩

def onScopes (f : Scopes Body → Scopes Body) : Lower Unit :=
  tryScopes fun s => (.ok (), f s)

def emit (i : Instr) : Lower Unit := fun _ s =>
  match s with
  | ⟨scopes, code, nextReg, globals, cells⟩ => .ok () ⟨scopes, code.push i, nextReg, globals, cells⟩

def fresh : Lower Reg :=
  modifyGet fun s => (s.nextReg, { s with nextReg := s.nextReg + 1 })

def position : Lower Nat :=
  return (← get).code.size

def cutFrom (start : Nat) : Lower (List Instr) :=
  modifyGet fun s => ((s.code.extract start s.code.size).toList, { s with code := s.code.shrink start })

def constant (v : Value) : Lower Reg := do
  let dst ← fresh
  emit (.constant dst v)
  return dst

def unary (op : UnaryOp) (src : Reg) : Lower Reg := do
  let dst ← fresh
  emit (.unary dst op src)
  return dst

def binary (op : BinaryOp) (left right : Reg) : Lower Reg := do
  let dst ← fresh
  emit (.binary dst op left right)
  return dst

def call (e : Entry) (args : List Reg) : Lower Reg := do
  if e.allocates then onScopes .markDirty
  let dst ← fresh
  emit (.entry dst e args)
  return dst

def perform (e : Entry) (args : List Reg) : Lower Unit := do
  let _ ← call e args

def poll : Lower Unit := emit .poll

def settle (loc : Location) : Lower Unit := do
  let s ← get
  if !loc.hasParent && s.scopes.dirty then
    perform .flush []
    onScopes (·.setDirty false)

/-! ### Root scopes -/

def openRoots (loc : Location) : Lower Unit := do
  let start ← position
  tryScopes (·.pushRootScope start (some loc))

/-- Close the innermost root scope and cut its code off. The frame is left out when nothing in the
scope needs it. -/
def closeRoots (loc : Location) : Lower (List Instr) := do
  let scope ← tryScopes (·.popRootScope (some loc))
  let body ← cutFrom scope.start
  if scope.required || (← read).keepScopes then return [.rooted body] else return body

def emitAll (code : List Instr) : Lower Unit :=
  code.forM emit

/-! ### Names -/

inductive Resolved where
  | builtin (b : Builtin) (least : Nat)
  | function (index : Nat) (decl : FunctionDecl)
  | parameter (i : Nat)
  deriving DecidableEq, Repr

def findFunction? (functions : List FunctionDecl) (id : String) : Option (Nat × FunctionDecl) :=
  match functions.findIdx? (·.id == id) with
  | some i => (functions[i]?).map fun d => (i, d)
  | none => none

def findParameter? (env : LowerEnv) (owner id : String) : Option Nat :=
  (findFunction? env.functions owner).bind fun (_, d) => d.params.findIdx? (· == id)

/-- What a name stands for: a built-in block, a defined block, or a parameter of the block whose
definition is being lowered. -/
def resolve (id : String) (loc : Location) : Lower Resolved := do
  let env ← read
  match Builtin.find? id with
  | some (b, least) => return .builtin b least
  | none =>
    match findFunction? env.functions id with
    | some (i, d) => return .function i d
    | none =>
      match env.paramOwners.lookup id, env.kind with
      | some owner, .user blockdef =>
        match if blockdef == owner then findParameter? env owner id else none with
        | some i => return .parameter i
        | none => fail .parameterUnowned loc
      | some _, .main => fail .parameterOutside loc
      | none, _ => fail (.noImplementation id) loc

end Lower

end Blockwork
