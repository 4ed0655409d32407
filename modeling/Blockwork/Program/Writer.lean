import Blockwork.JsonText.Tree
import Blockwork.Program.Basic

/-! # Writing programs

The stored form of a program. Every field is written, empty or not. -/

namespace Blockwork

open JsonText (Tree)

mutual

def Block.toTree : Block → Tree
  | .mk id args => .record [("id", .text id), ("args", .list (Argument.toTrees args))]

def Argument.toTree : Argument → Tree
  | .text s => .record [("text", .text s)]
  | .constant s => .record [("const", .text s)]
  | .block b => .record [("block", b.toTree)]
  | .blockdef id => .record [("blockdef", .text id)]
  | .color s => .record [("color", .text s)]

def Argument.toTrees : List Argument → List Tree
  | [] => []
  | a :: as => a.toTree :: Argument.toTrees as

end

def Chain.toTree (c : Chain) : Tree :=
  .record [("blocks", .list (c.blocks.map Block.toTree))]

def Input.toTree : Input → Tree
  | .label s => .record [("text", .text s)]
  | .parameter id => .record [("arg", .text id)]

def Blockdef.toTree (d : Blockdef) : Tree :=
  .record [("id", .text d.id), ("inputs", .list (d.inputs.map Input.toTree))]

def Program.toTree (p : Program) : Tree :=
  .record
    [("chains", .list (p.chains.map Chain.toTree)),
     ("blockdefs", .list (p.blockdefs.map Blockdef.toTree))]

def Program.toJson (p : Program) : String :=
  String.ofList (p.toTree.render 0)

end Blockwork
