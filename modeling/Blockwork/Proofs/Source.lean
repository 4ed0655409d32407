import Blockwork.Program.Basic
import Blockwork.Program.Catalog

/-! # Names in programs

Conditions on programs that can be read off their text: which blocks stand where, and what the blocks
that define others carry. -/

namespace Blockwork

mutual

def Block.names : Block → List String
  | .mk id args => id :: Argument.namesIn args

def Argument.names : Argument → List String
  | .block b => b.names
  | _ => []

def Argument.namesIn : List Argument → List String
  | [] => []
  | a :: rest => a.names ++ Argument.namesIn rest

end

def Block.definition (id : String) : Block :=
  .mk "define_block" [.blockdef id]

namespace Program

/-- Every block that defines another carries the name of its template and nothing else. -/
def BareHeads (p : Program) : Prop :=
  ∀ c ∈ p.chains, ∀ b, c.head? = some b → b.id = "define_block" → ∃ id, b.args = [.blockdef id]

def AssignsInStatements (p : Program) : Prop :=
  ∀ c ∈ p.chains, ∀ b ∈ c.blocks, "set_var" ∉ Argument.namesIn b.args

theorem BareHeads.of_two {b : Block} (h : b.id ≠ "define_block") (bs ds : List Block) (id : String)
    (templates : List Blockdef) : BareHeads ⟨[⟨b :: bs⟩, ⟨.definition id :: ds⟩], templates⟩ := by
  intro c hc b' hb hid
  simp only [List.mem_cons, List.not_mem_nil, or_false] at hc
  rcases hc with rfl | rfl
  · cases hb
    exact absurd hid h
  · cases hb
    exact ⟨id, rfl⟩

/-- Every loop counts its rounds: blocks that loop while a test holds, or forever, are not used. -/
def Counted (p : Program) : Prop :=
  ∀ c ∈ p.chains, ∀ b ∈ c.blocks, b.id ≠ "while" ∧ b.id ≠ "loop"

/-- Neither chance nor the time of day is asked for. -/
def Steady (p : Program) : Prop :=
  ∀ c ∈ p.chains, ∀ b ∈ c.blocks, "random" ∉ b.names ∧ "unix_time" ∉ b.names

end Program

namespace Builtin

theorem mem_catalog {id : String} (h : find? id = some (b, least)) : (id, b, least) ∈ catalog := by
  obtain ⟨front, back, hcat, -⟩ := List.lookup_eq_some_iff.mp h
  rw [hcat]
  exact List.mem_append_right _ List.mem_cons_self

theorem name_unique : ∀ x ∈ catalog, (x.2.1 = .operation .setVariable → x.1 = "set_var") ∧
    (x.2.1 = .operation .random → x.1 = "random") ∧ (x.2.1 = .operation .unixTime → x.1 = "unix_time") ∧
    (x.2.1 = .opener .whileTrue → x.1 = "while") ∧ (x.2.1 = .opener .forever → x.1 = "loop") := by
  decide

end Builtin

end Blockwork
