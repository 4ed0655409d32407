import Blockwork.Compile.Program
import Blockwork.Proofs.Tracing.Positions

/-! # Blocks as they are lowered
Lowering is watched without being changed: every plain block is noted when it is lowered, with its operands
and the numbers of its own instructions, and so is every scope that is opened or closed. -/

namespace Blockwork

open Machine

/-! ### Marks -/

/-- A plain block, with the operands it was lowered with and its value. -/
structure Note where
  loc : Location
  resolved : Lower.Resolved
  argv : List Operand
  value : Operand
  start : Nat
  stop : Nat

/-- What happens while a function is lowered. -/
inductive Mark where
  | opened
  | closed (start : Nat)
  | noted (n : Note)

namespace Lower

/-- Number of the next instruction without bodies. -/
def reached (s : LowerState) : Nat :=
  Instr.widthIn s.code.toList

def seen {α : Type} (x : Lower α) (f : α → LowerEnv → LowerState → List Mark) (env : LowerEnv)
    (s : LowerState) : List Mark :=
  match x env s with
  | .ok a t => f a env t
  | .error _ _ => []

theorem seen_ok {α : Type} {x : Lower α} {f : α → LowerEnv → LowerState → List Mark} {a : α} (h : x env s = .ok a t) :
    seen x f env s = f a env t := by
  rw [seen, h]

def noteOf (resolved : Resolved) (id : String) (argv : List Operand) (loc : Location) (env : LowerEnv)
    (s : LowerState) : List Mark :=
  seen (applyPlain resolved id argv loc) (fun v _ t => [.noted ⟨loc, resolved, argv, v, reached s, reached t⟩]) env s

mutual

def marksOfArguments : List Argument → Location → Nat → LowerEnv → LowerState → List Mark
  | [], _, _, _, _ => []
  | a :: rest, loc, i, env, s =>
    marksOfArgument a loc i env s ++ seen (argument a loc i) (fun _ => marksOfArguments rest loc (i + 1)) env s

def marksOfArgument : Argument → Location → Nat → LowerEnv → LowerState → List Mark
  | .block b, loc, i, env, s => marksOfPlain b (loc.child i) env s
  | _, _, _, _, _ => []

def marksOfPlain : Block → Location → LowerEnv → LowerState → List Mark
  | .mk id args, loc, env, s =>
    marksOfArguments args loc 0 env s ++ seen (resolve id loc) (fun resolved =>
        seen (arguments args loc 0) fun argv => noteOf resolved id argv loc) env s

end

def marksOfOpener (b : Block) (loc : Location) (env : LowerEnv) (s : LowerState) : List Mark :=
  .opened :: seen (tryScopes (·.pushVariableFrame loc)) (fun _ => marksOfArguments b.args loc 0) env s

def marksOfBlock (b : Block) (index position : Nat) (env : LowerEnv) (s : LowerState) : List Mark :=
  let loc : Location := ⟨index, [position]⟩
  seen (resolve b.id loc) (fun resolved env s =>
    match resolved with
    | .builtin (.hat _) _ => marksOfArguments b.args loc 0 env s
    | .builtin (.opener _) _ => marksOfOpener b loc env s
    | .builtin (.continuation _) _ =>
      .closed (reached s) :: seen (closeScope loc) (fun _ => marksOfOpener b loc) env s
    | .builtin .close _ => [.closed (reached s)]
    | _ => marksOfPlain b loc env s) env s

def marksOfBlocks (index : Nat) : List Block → Nat → LowerEnv → LowerState → List Mark
  | [], _, _, _ => []
  | b :: rest, position, env, s =>
    marksOfBlock b index position env s ++
      seen (block b index position) (fun _ => marksOfBlocks index rest (position + 1)) env s

def marksOfChain (index : Nat) (c : Chain) (env : LowerEnv) (s : LowerState) : List Mark :=
  marksOfBlocks index c.blocks 0 env { s with scopes := s.scopes.resetChain }

def marksOfChains : List (Nat × Chain) → LowerEnv → LowerState → List Mark
  | [], _, _ => []
  | (index, c) :: rest, env, s =>
    marksOfChain index c env s ++ seen (chain index c) (fun _ => marksOfChains rest) env s

end Lower

open Lower Compile in
def Compile.marksOfDefinitions (env : LowerEnv) (p : Program) : List Definition → Globals → List (List Mark)
  | [], _ => []
  | d :: rest, g =>
    let params :=
      match findFunction? env.functions d.blockdef with
      | some (_, f) => f.params.length
      | none => 0
    marksOfChain d.chain (p.chains.getD d.chain ⟨[]⟩) { env with kind := .user d.blockdef } (startState g params) ::
      marksOfDefinitions env p rest (lowerDefinition env p d g).2

open Lower Compile in
def Program.marks (p : Program) : List Mark × List (List Mark) :=
  match declare p with
  | .error _ => ([], [])
  | .ok (functions, definitions) =>
    let env : LowerEnv := ⟨.main, functions, paramOwners p, false⟩
    (seen beginMain (fun _ => marksOfChains (chainsHeaded p "on_start")) env (startState {} 0),
      marksOfDefinitions env p definitions (lowerMain env (chainsHeaded p "on_start")).2)

/-! ### What names stand for -/

/-- A variable that has a place in a running program: the block that declares it with the number of the
instruction that gives it its first value, its type, and whether it belongs to the whole program. -/
structure Stored where
  decl : Location
  start : Nat
  ty : ValueType
  isGlobal : Bool
  deriving DecidableEq, Repr

/-- What a name stands for. -/
inductive Held where
  | text (t : String)
  | stored (x : Stored)
  deriving DecidableEq, Repr

namespace Held

def Gives : Held → Operand → Prop
  | .text t, v => v = .literal t
  | .stored x, v => ∃ r, v = .reg x.ty r

/-- What can be assigned to it. -/
def Takes : Held → Operand → Prop
  | .text _, v => ∃ t, v = .literal t
  | .stored x, v => ∃ r, v = .reg x.ty r

end Held

structure Binding where
  name : String
  held : Held
  deriving DecidableEq, Repr

def Binding.stored? (b : Binding) : Option Stored :=
  match b.held with
  | .text _ => none
  | .stored x => some x

/-- Names that are visible at a point of a function, all lists newest first: those of the open scopes,
innermost first; those of the function itself; and those of the whole program. -/
structure Bindings where
  main : Bool
  blocks : List (List Binding) := []
  own : List Binding := []
  globals : List Binding := []

namespace Bindings

def locals (B : Bindings) : List Binding :=
  B.blocks.flatten ++ B.own

def find? (B : Bindings) (name : String) : Option Binding :=
  (B.locals ++ B.globals).find? (·.name == name)

def isTop (B : Bindings) : Bool :=
  B.main && B.blocks.isEmpty

def declare (B : Bindings) (b : Binding) : Bindings :=
  match B.blocks with
  | inner :: outer => { B with blocks := (b :: inner) :: outer }
  | [] => if B.main then { B with globals := b :: B.globals } else { B with own := b :: B.own }

def retext (name text : String) : List Binding → List Binding
  | [] => []
  | b :: bs => if b.name == name then { b with held := .text text } :: bs else b :: retext name text bs

def retextIn (name text : String) : List (List Binding) → List (List Binding)
  | [] => []
  | bs :: rest =>
    if bs.any (·.name == name) then retext name text bs :: rest else bs :: retextIn name text rest

def assign (B : Bindings) (name text : String) : Bindings :=
  if B.blocks.flatten.any (·.name == name) then { B with blocks := retextIn name text B.blocks }
  else if B.own.any (·.name == name) then { B with own := retext name text B.own }
  else { B with globals := retext name text B.globals }

end Bindings

def Note.operation? (n : Note) : Option Operation :=
  match n.resolved with
  | .builtin (.operation op) _ => some op
  | _ => none

/-- How an instruction touches a variable: it gives it the value of a register, or gives a register its value. -/
inductive Access where
  | declares (x : Stored) (src : Reg)
  | assigns (x : Stored) (src : Reg)
  | reads (x : Stored) (dst : Reg)
  | closes (xs : List Stored)
  deriving DecidableEq, Repr

namespace Bindings

def declared (B : Bindings) (n : Note) (ty : ValueType) : Stored :=
  ⟨n.loc, n.start, ty, B.isTop⟩

def target? (B : Bindings) (name : String) : Option Stored :=
  (B.find? name).bind Binding.stored?

/-- How the first instruction of a block touches a variable. -/
def access? (B : Bindings) (n : Note) : Option Access :=
  match n.operation?, n.argv.getD 0 .nothing, n.argv.getD 1 .nothing, n.value with
  | some .declare, .literal _, .reg ty r, _ => some (.declares (B.declared n ty) r)
  | some .setVariable, .literal name, .reg _ r, _ => (B.target? name).map (.assigns · r)
  | some .getVariable, .literal name, _, .reg _ d => (B.target? name).map (.reads · d)
  | _, _, _, _ => none

def afterNote (B : Bindings) (n : Note) : Bindings :=
  match n.operation?, n.argv.getD 0 .nothing, n.argv.getD 1 .nothing with
  | some .declare, .literal name, .literal text => B.declare ⟨name, .text text⟩
  | some .declare, .literal name, .reg ty _ => B.declare ⟨name, .stored (B.declared n ty)⟩
  | some .setVariable, .literal name, .literal text => B.assign name text
  | _, _, _ => B

def after (B : Bindings) : Mark → Bindings
  | .opened => { B with blocks := [] :: B.blocks }
  | .closed _ => { B with blocks := B.blocks.tail }
  | .noted n => B.afterNote n

def afterAll (B : Bindings) : List Mark → Bindings
  | [] => B
  | m :: ms => (B.after m).afterAll ms

def accessOf (B : Bindings) : Mark → Option (Nat × Access)
  | .opened => none
  | .closed k => some (k, .closes ((B.blocks.head?.getD []).filterMap Binding.stored?))
  | .noted n => (B.access? n).map fun a => (n.start, a)

def accesses (B : Bindings) : List Mark → List (Nat × Access)
  | [] => []
  | m :: ms => (B.accessOf m).toList ++ (B.after m).accesses ms

/-- A block that reads or assigns to a variable names one that is visible; it reads the text or a register
of the type of the variable, and assigns the same. -/
structure TellsNote (B : Bindings) (n : Note) : Prop where
  gets : n.operation? = some .getVariable → ∃ name b, n.argv.getD 0 .nothing = .literal name ∧
    B.find? name = some b ∧ b.held.Gives n.value
  sets : n.operation? = some .setVariable → ∃ name b, n.argv.getD 0 .nothing = .literal name ∧
    B.find? name = some b ∧ b.held.Takes (n.argv.getD 1 .nothing)

/-- All blocks on variables among some marks are so. -/
def Tells (B : Bindings) : List Mark → Prop
  | [] => True
  | m :: ms => (∀ n, m = .noted n → B.TellsNote n) ∧ (B.after m).Tells ms

def entering (B : Bindings) : Bindings :=
  { main := false, globals := B.globals }

/-- What names stand for at the start of functions that are lowered one after the other. -/
def starts (B : Bindings) : List (List Mark) → List Bindings
  | [] => []
  | ms :: rest => B.entering :: (B.entering.afterAll ms).starts rest

end Bindings

namespace Program

def marksOf (p : Program) : Option Nat → List Mark
  | none => p.marks.1
  | some i => p.marks.2.getD i []

def bindingsOf (p : Program) : Option Nat → Bindings
  | none => { main := true }
  | some i => ((({ main := true } : Bindings).afterAll p.marks.1).starts p.marks.2).getD i { main := false }

def accessesOf (p : Program) (f : Option Nat) : List (Nat × Access) :=
  (p.bindingsOf f).accesses (p.marksOf f)

end Program

/-- What a step does to a variable: the invocation that runs, how it touches the variable, and the value
that the variable gets or gives. -/
structure Event where
  invocation : Invocation
  access : Access
  value : Value

def Progress.get : Progress → Reg → Value
  | .running m, r => m.active.get r
  | .finished _, _ => .zero

def Access.value (before after : Progress) : Access → Value
  | .declares _ r => before.get r
  | .assigns _ r => before.get r
  | .reads _ d => after.get d
  | .closes _ => .zero

def Machine.atLeaf (m : Machine) : Bool :=
  match m.active.code with
  | i :: _ => i.isLeaf
  | [] => false

/-- What step `n` of a run of a compiled program does to a variable. -/
def Program.event? (p : Program) (code : ProgramCode) (h : Host) (s : Session) (n : Nat) : Option Event :=
  let m := load code s
  match advance code h m n, trail code h m n with
  | .running m', inv :: _ =>
    if m'.atLeaf then
      ((p.accessesOf inv.function).lookup inv.pc).map fun a =>
        ⟨inv, a, a.value (.running m') (advance code h m (n + 1))⟩
    else none
  | _, _ => none

end Blockwork
