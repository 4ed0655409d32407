import Blockwork.Compile.Operation

/-! # Blocks and chains
Arguments are lowered left to right and innermost first, then the block itself. A block that opens a
scope leaves a frame; the block that closes the scope cuts the body off the code and puts it back as
the nested body of one instruction. -/

namespace Blockwork.Lower

/-! ### Plain blocks with their arguments -/

def requireArguments (id : String) (least got : Nat) (loc : Location) : Lower Unit :=
  if got < least then fail (.missingArguments id least got) loc else pure ()

/-- Call a defined block. Its arguments are boxed, and it may have left because the program has to
stop. -/
def callFunction (index : Nat) (decl : FunctionDecl) (argv : List Operand) (loc : Location) :
    Lower Operand := do
  if argv.length > maxParameters then fail (.tooManyParameters argv.length) loc
  else if argv.length ≠ decl.params.length then
    fail (.wrongArity decl.id decl.params.length argv.length) loc
  else
    let args ← argv.mapM (toAny · loc)
    onScopes .markDirty
    let dst ← fresh
    emit (.call dst index args)
    poll
    return .reg .any dst

def colorArgument (text : String) (loc : Location) : Lower Operand :=
  match Text.parseColor text.toList with
  | some v => return .reg .color (← constant (.color v))
  | none => fail (.invalidColor text) loc

def applyPlain (resolved : Resolved) (id : String) (argv : List Operand) (loc : Location) :
    Lower Operand := do
  let result ←
    match resolved with
    | .builtin (.operation op) least => do
      requireArguments id least argv.length loc
      operation op argv loc
    | .builtin _ _ => fail (.notAnArgument id) loc
    | .function index decl => callFunction index decl argv loc
    | .parameter i => pure (.reg .any i)
  settle loc
  return result

def Resolved.isPlain : Resolved → Bool
  | .builtin b _ => b.role == .plain
  | _ => true

mutual

def arguments : List Argument → Location → Nat → Lower (List Operand)
  | [], _, _ => return []
  | a :: rest, loc, i => do
    let v ← argument a loc i
    let vs ← arguments rest loc (i + 1)
    return v :: vs

def argument : Argument → Location → Nat → Lower Operand
  | .text s, _, _ => return .literal s
  | .constant s, _, _ => return .literal s
  | .blockdef id, _, _ => return .blockdef id
  | .color s, loc, _ => colorArgument s loc
  | .block b, loc, i => nested b (loc.child i)

def nested : Block → Location → Lower Operand
  | .mk id args, loc => do
    let resolved ← resolve id loc
    if resolved.isPlain then
      let argv ← arguments args loc 0
      applyPlain resolved id argv loc
    else fail (.notAnArgument id) loc

end

/-! ### Scopes -/

def beginFunction (arg : Operand) (loc : Location) : Lower Unit := do
  match arg, (← read).kind with
  | .blockdef _, .user _ => do
    perform .rootSave []
    openRoots loc
    poll
    onScopes (·.openFrame .function)
  | .blockdef _, .main => fail .invalidControl loc
  | arg, _ => fail (.expectedType arg.dataType .blockdef) loc

def hat (h : Hat) (least : Nat) (b : Block) (loc : Location) : Lower Unit := do
  let argv ← arguments b.args loc 0
  requireArguments b.id least argv.length loc
  match h with
  | .onStart => pure ()
  | .defineBlock => beginFunction (argv.getD 0 .nothing) loc
  settle loc
  let _ ← tryScopes (·.pushOpened loc)

def openBody (body : Body) (loc : Location) : Lower Unit := do
  openRoots loc
  onScopes (·.openFrame (.body body))

def openScope (o : Opener) (start : Nat) (argv : List Operand) (loc : Location) : Lower Unit := do
  let arg := argv.getD 0 .nothing
  match o with
  | .whenTrue =>
    let cond ← toBool arg loc
    openBody (.branch cond cond) loc
  | .whileTrue =>
    let cond ← toBool arg loc
    openBody (.whileLoop start cond (← get).scopes.openingDirty) loc
  | .counted =>
    let count ← toInteger arg loc
    openBody (.countLoop count) loc
  | .forever => openBody .foreverLoop loc
  | .doNothing => openBody .plain loc

/-- Open the scope of a block that goes on after another scope. The first operand says whether an
earlier branch ran. -/
def openContinuation (c : Continuation) (handled : Operand) (argv : List Operand) (loc : Location) :
    Lower Unit := do
  let earlier ← toBool handled loc
  match c with
  | .elseIf =>
    let cond ← toBool (argv.getD 0 .nothing) loc
    let run ← binary .and (← unary .not earlier) cond
    openBody (.branch run (← binary .or earlier cond)) loc
  | .otherwise =>
    let run ← unary .not earlier
    openBody (.branch run (← constant (.bool true))) loc

def beginScope (least : Nat) (b : Block) (loc : Location)
    (enter : Nat → List Operand → Lower Unit) : Lower Unit := do
  let start ← position
  tryScopes (·.pushVariableFrame loc)
  let argv ← arguments b.args loc 0
  onScopes .saveDirty
  requireArguments b.id least argv.length loc
  enter start argv
  settle loc
  unless ← tryScopes (·.pushOpened loc) do fail .invalidControl loc

/-- Put the body of a closed scope back into the code; the value that the scope leaves for a block
that goes on after it. -/
def closeBody (body : Body) (code : List Instr) : Lower Operand := do
  match body with
  | .branch run handled =>
    emit (.ifThen run code)
    return .reg .bool handled
  | .whileLoop start cond flush =>
    let test ← cutFrom start
    let drop ← fresh
    emit (.whileLoop test cond (if flush then code ++ [.entry drop .flush []] else code))
    return .reg .bool (← constant (.bool true))
  | .countLoop count =>
    emit (.countLoop count code)
    return .reg .bool (← unary .isPositive count)
  | .foreverLoop =>
    emit (.foreverLoop code)
    return .reg .bool (← constant (.bool false))
  | .plain =>
    emitAll code
    return .nothing

def closeScope (loc : Location) : Lower Operand := do
  let opener ← tryScopes (·.popControl loc)
  poll
  tryScopes (·.popVariableFrame opener)
  onScopes .restoreDirty
  match ← tryScopes (·.closeFrame opener) with
  | .function => fail .invalidControl opener
  | .body body =>
    let value ← closeBody body (← closeRoots opener)
    settle opener
    return value

/-! ### Chains -/

def block (b : Block) (index position : Nat) : Lower Unit := do
  let loc : Location := ⟨index, [position]⟩
  let resolved ← resolve b.id loc
  match resolved with
  | .builtin (.hat h) least =>
    if position ≠ 0 then fail (.startsOnly b.id) loc else hat h least b loc
  | .builtin (.opener o) least =>
    beginScope least b loc fun start argv => openScope o start argv loc
  | .builtin (.continuation c) least => do
    let handled ← closeScope loc
    beginScope least b loc fun _ argv => openContinuation c handled argv loc
  | .builtin .close _ => do
    let _ ← closeScope loc
  | resolved => do
    let argv ← arguments b.args loc 0
    let _ ← applyPlain resolved b.id argv loc
    poll

def blocks (index : Nat) : List Block → Nat → Lower Unit
  | [], _ => pure ()
  | b :: rest, position => do
    block b index position
    blocks index rest (position + 1)

/-- Check that a chain has closed its scopes: the main function leaves none, and the body of a
defined block leaves itself. -/
def closeChain (index : Nat) : Lower Unit := do
  let innermost ← tryScopes fun s => let (o, s) := s.takeInnermost; (.ok o, s)
  match (← read).kind, innermost with
  | .main, none => pure ()
  | .user _, some ⟨_, .function⟩ => pure ()
  | _, some o => fail .unterminated o.loc
  | .user _, none => fail .invalidControl ⟨index, [0]⟩

def chain (index : Nat) (c : Chain) : Lower Unit := do
  onScopes .resetChain
  blocks index c.blocks 0
  closeChain index

end Blockwork.Lower
