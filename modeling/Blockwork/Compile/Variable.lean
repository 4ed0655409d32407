import Blockwork.Compile.Cast

/-! # Variables
A variable declared with a text of the program exists only while compiling. Any other variable has a
slot of its activation, or a cell when it is declared at the top of the main function. -/

namespace Blockwork.Lower

def findGlobal? (globals : Array Variable) (name : String) : Option Variable :=
  globals.toList.reverse.find? (·.name == name)

def findVariable (name : String) (loc : Location) : Lower Variable := do
  let s ← get
  match s.scopes.findLocal? name <|> findGlobal? s.globals name with
  | some v => return v
  | none => fail (.unknownVariable name) loc

def variableName (arg : Operand) (loc : Location) : Lower String :=
  match arg with
  | .literal name => return name
  | arg => fail (.expectedType arg.dataType .literal) loc

def takeSlot : Lower Nat := do
  match ← tryScopes fun s => let (i, s) := s.reuseSlot; (.ok i, s) with
  | some i => return i
  | none =>
    let i := (← get).scopes.slots.size
    onScopes (·.addSlot i)
    return i

def takeCell : Lower Nat :=
  modifyGet fun s => (s.cells, { s with cells := s.cells + 1 })

def initialise (place : Place) (ty : ValueType) (src : Reg) : Lower Unit := do
  emit (.store place src)
  if ty.isHeap then
    let address ← fresh
    emit (.address address place)
    perform .addRoot [address]
    onScopes .requireRootScope

def isGlobalScope : Lower Bool :=
  return (← read).kind == .main && (← get).scopes.controlDepth == 0

def bindVariable (v : Variable) (global : Bool) : Lower Unit :=
  if global then modify fun s => { s with globals := s.globals.push v }
  else onScopes (·.declare v)

def declareVariable (name : String) (value : Operand) (loc : Location) : Lower Unit := do
  let global ← isGlobalScope
  match value with
  | .literal text => bindVariable ⟨name, .literal, .constant text⟩ global
  | .nothing => fail .declaresNothing loc
  | .blockdef _ => fail .declaresBlockdef loc
  | .reg ty r =>
    if global then
      let i ← takeCell
      initialise (.global i) ty r
      bindVariable ⟨name, .value ty, .global i⟩ global
    else
      let i ← takeSlot
      initialise (.slot i) ty r
      bindVariable ⟨name, .value ty, .slot i⟩ global

def loadPlace (place : Place) (ty : DataType) (loc : Location) : Lower Operand :=
  match ty with
  | .value ty => do
    let dst ← fresh
    emit (.load dst ty place)
    return .reg ty dst
  | ty => fail (.noRepresentation ty) loc

def loadVariable (name : String) (loc : Location) : Lower Operand := do
  let v ← findVariable name loc
  match v.storage with
  | .constant text => return .literal text
  | .slot i => loadPlace (.slot i) v.ty loc
  | .global i => loadPlace (.global i) v.ty loc

def storePlace (place : Place) (value : Operand) (loc : Location) : Lower Unit :=
  match value with
  | .reg _ r => emit (.store place r)
  | value => fail (.noRepresentation value.dataType) loc

def setConstant (name text : String) : Lower Unit := do
  let found ← tryScopes fun s => let (b, s) := s.setLocal name (.constant text); (.ok b, s)
  unless found do
    modify fun s =>
      match Scopes.lastNamed? s.globals name with
      | some i => { s with globals := s.globals.modify i fun v => { v with storage := .constant text } }
      | none => s

def storeVariable (name : String) (value : Operand) (loc : Location) : Lower Unit := do
  let v ← findVariable name loc
  if v.ty ≠ value.dataType then fail (.assignType name v.ty value.dataType) loc
  else
    match v.storage, value with
    | .constant _, .literal text => setConstant name text
    | .constant _, value => fail (.noRepresentation value.dataType) loc
    | .slot i, value => storePlace (.slot i) value loc
    | .global i, value => storePlace (.global i) value loc

def declarationBlock (name value : Operand) (loc : Location) : Lower Operand := do
  if loc.hasParent then fail .nestedDeclaration loc
  else
    let name ← variableName name loc
    if name == "" then fail .emptyName loc
    else
      declareVariable name value loc
      return value

end Blockwork.Lower
