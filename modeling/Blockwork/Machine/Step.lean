import Blockwork.Entry.Run
import Blockwork.Machine.Code

/-! # The machine
Runs lowered code one step at a time. Slots of all activations stand on one stack above the program's
cells, so that a variable's place can be a root. -/

namespace Blockwork

/-- What to do when a body is done. Each form keeps the instructions that follow it. -/
inductive Kont where
  | next (rest : List Instr)
  | closeRoots (rest : List Instr)
  /-- Another round of a counted loop, with `left` rounds counted down to. -/
  | countLoop (left : Int64) (body rest : List Instr)
  | whileTest (test : List Instr) (cond : Reg) (body rest : List Instr)
  | whileBody (test : List Instr) (cond : Reg) (body rest : List Instr)
  | foreverLoop (body : List Instr)
  deriving Inhabited

structure Activation where
  code : List Instr
  konts : List Kont := []
  regs : Array Value
  /-- Where its slots begin. -/
  base : Nat
  dst : Reg
  deriving Inhabited

/-- A running program: the session, the function that runs, and those that wait for it. -/
structure Machine where
  session : Session
  active : Activation
  waiting : List Activation := []
  deriving Inhabited

inductive Progress where
  | running (m : Machine)
  | finished (s : Session)
  deriving Inhabited

namespace Activation

def get (a : Activation) (r : Reg) : Value :=
  a.regs.getD r .zero

def set (a : Activation) (r : Reg) (v : Value) : Activation :=
  match a with
  | ⟨code, konts, regs, base, dst⟩ => ⟨code, konts, regs.setIfInBounds r v, base, dst⟩

def place (a : Activation) : Place → Nat
  | .slot i => a.base + i
  | .global i => i

/-- Run `body` before `rest`, with a continuation in between. -/
def enter (a : Activation) (body : List Instr) (k : Kont) : Activation :=
  { a with code := body, konts := k :: a.konts }

/-- The start of a round of a counted loop: count down, and run the body unless the count is
negative. -/
def countRound (a : Activation) (counter : Int64) (body rest : List Instr) : Activation :=
  let left := counter - 1
  if left < 0 then { a with code := rest }
  else a.enter body (.countLoop left body rest)

end Activation

namespace Machine

def goOn (s : Session) (waiting : List Activation) (a : Activation) : Progress :=
  .running ⟨s, a, waiting⟩

def leave (s : Session) (waiting : List Activation) (a : Activation) (v : Value) : Progress :=
  let s := { s with memory := { s.memory with slots := s.memory.slots.shrink a.base } }
  match waiting with
  | [] => .finished s
  | caller :: waiting => .running ⟨s, caller.set a.dst v, waiting⟩

def nothingResult : Value := .any (.static .nothing)

def start (f : FunctionCode) (args : List Value) (base : Nat) (dst : Reg) : Activation :=
  { code := f.code
    regs := args.toArray ++ Array.replicate (f.registers - args.length) .zero
    base, dst }

def addSlots (s : Session) (n : Nat) : Session :=
  { s with memory := { s.memory with slots := s.memory.slots ++ Array.replicate n .zero } }

def resume (s : Session) (waiting : List Activation) (a : Activation) (k : Kont) : Progress :=
  match k with
  | .next rest => goOn s waiting { a with code := rest }
  | .closeRoots rest => goOn s.rootEnd waiting { a with code := rest }
  | .countLoop left body rest => goOn s waiting (a.countRound left body rest)
  | .whileTest test cond body rest =>
    if (a.get cond).toBool then goOn s waiting (a.enter body (.whileBody test cond body rest))
    else goOn s waiting { a with code := rest }
  | .whileBody test cond body rest =>
    goOn s waiting (a.enter test (.whileTest test cond body rest))
  | .foreverLoop body => goOn s waiting (a.enter body (.foreverLoop body))

def execute (p : ProgramCode) (s : Session) (waiting : List Activation) (a : Activation) (i : Instr) :
    Progress :=
  match i with
  | .constant dst v => goOn s waiting (a.set dst v)
  | .unary dst op src => goOn s waiting (a.set dst (op.run (a.get src)))
  | .binary dst op l r => goOn s waiting (a.set dst (op.run (a.get l) (a.get r)))
  | .element dst src => goOn s waiting (a.set dst (.element (s.elementOf (a.get src))))
  | .load dst ty place =>
    goOn s waiting (a.set dst ((s.memory.slot (a.place place)).readAs ty))
  | .store place src =>
    goOn { s with memory := s.memory.setSlot (a.place place) (a.get src) } waiting a
  | .address dst place => goOn s waiting (a.set dst (.place (a.place place)))
  | .entry dst e args =>
    let (v, s) := e.run (args.map a.get) s
    goOn s waiting (a.set dst v)
  | .call dst f args =>
    let callee := p.functions.getD f default
    let base := s.memory.slots.size
    goOn (addSlots s callee.slots) (a :: waiting) (start callee (args.map a.get) base dst)
  | .poll => if s.shouldExit then leave s.rootRestore waiting a nothingResult else goOn s waiting a
  | .ret (some r) => leave s waiting a (a.get r)
  | .ret none => leave s waiting a .zero
  | .rooted body => goOn s.rootBegin waiting (a.enter body (.closeRoots a.code))
  | .ifThen cond body =>
    if (a.get cond).toBool then goOn s waiting (a.enter body (.next a.code)) else goOn s waiting a
  | .countLoop count body => goOn s waiting (a.countRound (a.get count).toInteger body a.code)
  | .whileLoop test cond body => goOn s waiting (a.enter test (.whileTest test cond body a.code))
  | .foreverLoop body => goOn s waiting (a.enter body (.foreverLoop body))

/-- One step. A body that is done goes on with what follows it; a function whose code ends leaves with
nothing. -/
def step (p : ProgramCode) : Machine → Progress
  | ⟨s, ⟨i :: code, konts, regs, base, dst⟩, waiting⟩ =>
    execute p s waiting ⟨code, konts, regs, base, dst⟩ i
  | ⟨s, ⟨[], k :: konts, regs, base, dst⟩, waiting⟩ =>
    resume s waiting ⟨[], konts, regs, base, dst⟩ k
  | ⟨s, ⟨[], [], regs, base, dst⟩, waiting⟩ =>
    leave s waiting ⟨[], [], regs, base, dst⟩ nothingResult

def run (p : ProgramCode) : Nat → Machine → Option Session
  | 0, _ => none
  | fuel + 1, m =>
    match step p m with
    | .running m => run p fuel m
    | .finished s => some s

def load (p : ProgramCode) (s : Session) : Machine :=
  { session := addSlots s (p.cells + p.main.slots), active := start p.main [] p.cells 0 }

end Machine

end Blockwork
