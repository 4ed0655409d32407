import Blockwork.Machine.Code

/-! # Code without idle root frames
A body needs the root frame around it when it allocates, registers a variable, drops temporaries or calls a
function, outside of the frames that it opens itself. -/

namespace Blockwork

open Instr

def Instr.isLeaf : Instr → Bool
  | .rooted _ => false
  | .ifThen _ _ => false
  | .countLoop _ _ => false
  | .whileLoop _ _ _ => false
  | .foreverLoop _ => false
  | _ => true

def Entry.usesFrame (e : Entry) : Bool :=
  e.allocates || e == .addRoot || e == .flush

mutual

def Instr.usesFrame : Instr → Bool
  | .entry _ e _ => e.usesFrame
  | .call _ _ _ => true
  | .ifThen _ body => usesFrameIn body
  | .countLoop _ body => usesFrameIn body
  | .whileLoop test _ body => usesFrameIn test || usesFrameIn body
  | .foreverLoop body => usesFrameIn body
  | _ => false

def Instr.usesFrameIn : List Instr → Bool
  | [] => false
  | i :: is => i.usesFrame || usesFrameIn is

end

/-! ### Trimmed code -/

mutual

def Instr.trim : Instr → List Instr
  | .rooted body =>
    if usesFrameIn body then [.rooted (trimAll body)] else trimAll body
  | .ifThen cond body => [.ifThen cond (trimAll body)]
  | .countLoop count body => [.countLoop count (trimAll body)]
  | .whileLoop test cond body => [.whileLoop (trimAll test) cond (trimAll body)]
  | .foreverLoop body => [.foreverLoop (trimAll body)]
  | i => [i]

def Instr.trimAll : List Instr → List Instr
  | [] => []
  | i :: is => i.trim ++ trimAll is

end

def FunctionCode.trim (f : FunctionCode) : FunctionCode :=
  { f with code := trimAll f.code }

def ProgramCode.trim (p : ProgramCode) : ProgramCode :=
  { p with main := p.main.trim, functions := p.functions.map FunctionCode.trim }

/-- Code as it is laid when all root frames are kept, or when the idle ones are left out. -/
def Instr.slim (keep : Bool) (is : List Instr) : List Instr :=
  bif keep then is else trimAll is

def FunctionCode.slim (keep : Bool) (f : FunctionCode) : FunctionCode :=
  { f with code := Instr.slim keep f.code }

def ProgramCode.slim (keep : Bool) (p : ProgramCode) : ProgramCode :=
  { p with main := p.main.slim keep, functions := p.functions.map (FunctionCode.slim keep) }

structure ProgramCode.OwnFrames (p : ProgramCode) : Prop where
  main : usesFrameIn p.main.code = false
  functions : ∀ f ∈ p.functions, usesFrameIn f.code = false

namespace Instr

theorem usesFrameIn_append (is js : List Instr) : usesFrameIn (is ++ js) = (usesFrameIn is || usesFrameIn js) := by
  induction is with
  | nil => rfl
  | cons i is ih => simp only [List.cons_append, usesFrameIn, ih, Bool.or_assoc]

theorem trimAll_append (is js : List Instr) : trimAll (is ++ js) = trimAll is ++ trimAll js := by
  induction is with
  | nil => rfl
  | cons i is ih => simp only [List.cons_append, trimAll, ih, List.append_assoc]

theorem trim_of_isLeaf {i : Instr} (h : i.isLeaf = true) : i.trim = [i] := by
  cases i with
  | rooted | ifThen | countLoop | whileLoop | foreverLoop => cases h
  | _ => rfl

theorem trimAll_of_isLeaf (h : ∀ i ∈ is, i.isLeaf = true) : trimAll is = is := by
  induction is with
  | nil => rfl
  | cons i is ih =>
    have hi := trim_of_isLeaf (h i List.mem_cons_self)
    have his := ih fun j hj => h j (List.mem_cons_of_mem _ hj)
    simp only [trimAll, hi, his, List.singleton_append]

theorem usesFrameIn_singleton (i : Instr) : usesFrameIn [i] = i.usesFrame :=
  Bool.or_false _

theorem trimAll_singleton (i : Instr) : trimAll [i] = i.trim :=
  List.append_nil _

theorem slim_append (keep : Bool) (is js : List Instr) : slim keep (is ++ js) = slim keep is ++ slim keep js := by
  cases keep with
  | false => exact trimAll_append is js
  | true => rfl

theorem slim_of_isLeaf (h : ∀ i ∈ is, i.isLeaf = true) : slim keep is = is := by
  cases keep with
  | false => exact trimAll_of_isLeaf h
  | true => rfl

end Instr

end Blockwork
