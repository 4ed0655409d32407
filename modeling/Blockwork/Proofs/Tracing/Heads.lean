import Blockwork.Proofs.Lowering.Programs

/-! # Templates
No plain block has a template as value. -/

namespace Blockwork.Tracing

open Lower
open Flow

variable {env : LowerEnv} {s t : LowerState}

def IsValue (v : Operand) : Prop :=
  ∀ id, v ≠ .blockdef id

def YieldsValue (x : Lower Operand) : Prop :=
  ∀ env s v t, x env s = .ok v t → IsValue v

namespace YieldsValue

theorem pure (h : IsValue v) : YieldsValue (pure v) := by
  intro env s w t hx
  obtain ⟨rfl, -⟩ := pure_ok hx
  exact h

theorem fail : YieldsValue (Lower.fail cause loc) :=
  fun _ _ _ _ hx => (fail_ok hx).elim

theorem bind {α : Type} {x : Lower α} {f : α → Lower Operand} (h : ∀ a, YieldsValue (f a)) :
    YieldsValue (x >>= f) := by
  intro env s v t hx
  obtain ⟨a, s₁, -, hf⟩ := bind_ok hx
  exact h a env s₁ v t hf

theorem result {ty : ValueType} : YieldsValue (do return .reg ty (← x)) :=
  bind fun _ => pure nofun

end YieldsValue

theorem statement_yieldsValue (e : Entry) (args : List Reg) : YieldsValue (statement e args) :=
  .bind fun _ => .pure nofun

theorem byLeftOperand_yieldsValue (left right : Operand) (loc : Location) (result : ValueType → ValueType)
    (floats : Reg → Reg → Lower Reg) (integers : Reg → Operand → Lower Reg) :
    YieldsValue (byLeftOperand left right loc result floats integers) := by
  unfold byLeftOperand
  split
  · exact .bind fun _ => .result
  · exact .bind fun _ => .result

theorem arithmetic_yieldsValue (floatOp intOp : BinaryOp) (left right : Operand) (loc : Location) :
    YieldsValue (arithmetic floatOp intOp left right loc) :=
  byLeftOperand_yieldsValue _ _ _ _ _ _

theorem ordering_yieldsValue (c : Comparison) (left right : Operand) (loc : Location) :
    YieldsValue (ordering c left right loc) :=
  byLeftOperand_yieldsValue _ _ _ _ _ _

theorem mathFunction_yieldsValue (label x : Operand) (loc : Location) : YieldsValue (mathFunction label x loc) := by
  unfold mathFunction
  split
  · split
    · exact .fail
    · exact .bind fun _ => .bind fun _ => .result
  · exact .fail

theorem castToValue_yieldsValue (arg : Operand) (ty : ValueType) (loc : Location) :
    YieldsValue (castToValue arg ty loc) := by
  cases ty <;> exact .result

theorem typeName_yieldsValue (arg : Operand) : YieldsValue (typeName arg) := by
  unfold typeName
  split
  · exact .result
  · exact .pure nofun

theorem join_yieldsValue (left right : Operand) (loc : Location) : YieldsValue (join left right loc) := by
  unfold join
  split
  · exact .pure nofun
  · exact .bind fun _ => .bind fun _ => .result

theorem length_yieldsValue (arg : Operand) (loc : Location) : YieldsValue (Lower.length arg loc) := by
  unfold Lower.length
  split
  · exact .result
  · exact .bind fun _ => .result

theorem ord_yieldsValue (arg : Operand) (loc : Location) : YieldsValue (ord arg loc) := by
  unfold ord
  split
  · exact .result
  · exact .bind fun _ => .result

theorem loadVariable_yieldsValue (name : String) (loc : Location) : YieldsValue (loadVariable name loc) := by
  refine .bind fun v => ?_
  have hload : ∀ place, YieldsValue (loadPlace place v.ty loc) := by
    intro place
    unfold loadPlace
    split
    · exact .bind fun _ => .bind fun _ => .pure nofun
    · exact .fail
  split
  · exact .pure nofun
  · exact hload _
  · exact hload _

theorem storeVariable_isValue (h : storeVariable name value loc env s = .ok u t) : IsValue value := by
  rintro id rfl
  obtain ⟨v, s₁, -, hrest⟩ := bind_ok h
  split at hrest
  · exact fail_ok hrest
  · cases hstorage : v.storage with
    | constant | slot | global =>
      simp only [hstorage] at hrest
      exact fail_ok hrest

theorem declareVariable_isValue (h : declareVariable name value loc env s = .ok u t) : IsValue value := by
  rintro id rfl
  obtain ⟨b, s₁, -, hrest⟩ := bind_ok h
  exact fail_ok hrest

theorem setVariable_yieldsValue (argv : List Operand) (loc : Location) :
    YieldsValue (operation .setVariable argv loc) := by
  intro env s v t hx
  obtain ⟨name, s₁, -, hrest⟩ := bind_ok hx
  obtain ⟨⟨⟩, s₂, hstore, hlast⟩ := bind_ok hrest
  obtain ⟨rfl, -⟩ := pure_ok hlast
  exact storeVariable_isValue hstore

theorem declarationBlock_yieldsValue (name value : Operand) (loc : Location) :
    YieldsValue (declarationBlock name value loc) := by
  unfold declarationBlock
  split
  · exact .fail
  · refine .bind fun name => ?_
    split
    · exact .fail
    · intro env s v t hx
      obtain ⟨⟨⟩, s₁, hdeclare, hlast⟩ := bind_ok hx
      obtain ⟨rfl, -⟩ := pure_ok hlast
      exact declareVariable_isValue hdeclare

theorem operation_yieldsValue (op : Operation) (argv : List Operand) (loc : Location) :
    YieldsValue (operation op argv loc) := by
  cases op with
  | setVariable => exact setVariable_yieldsValue argv loc
  | declare => exact declarationBlock_yieldsValue _ _ loc
  | getVariable => exact .bind fun name => loadVariable_yieldsValue name loc
  | leave => exact .bind fun _ => .pure nofun
  | nothing | comment => exact .pure nofun
  | resetColors | clear | collect => exact statement_yieldsValue _ _
  | setForeground | setBackground | setClearColor => exact .bind fun _ => statement_yieldsValue _ _
  | setCursor | listAdd => exact .bind fun _ => .bind fun _ => statement_yieldsValue _ _
  | listSet => exact .bind fun _ => .bind fun _ => .bind fun _ => statement_yieldsValue _ _
  | plus | minus | mult => exact arithmetic_yieldsValue _ _ _ _ loc
  | div =>
    simp only [operation, quotient]
    exact byLeftOperand_yieldsValue _ _ _ _ _ _
  | rem =>
    simp only [operation, remainder]
    exact byLeftOperand_yieldsValue _ _ _ _ _ _
  | pow =>
    simp only [operation, power]
    exact byLeftOperand_yieldsValue _ _ _ _ _ _
  | less | lessEq | more | moreEq => exact ordering_yieldsValue _ _ _ loc
  | math => exact mathFunction_yieldsValue _ _ loc
  | toInteger => exact castToValue_yieldsValue _ .integer loc
  | toFloat => exact castToValue_yieldsValue _ .float loc
  | toString => exact castToValue_yieldsValue _ .string loc
  | toBool => exact castToValue_yieldsValue _ .bool loc
  | toColor => exact castToValue_yieldsValue _ .color loc
  | typeOf => exact typeName_yieldsValue _
  | join => exact join_yieldsValue _ _ loc
  | length => exact length_yieldsValue _ loc
  | ord => exact ord_yieldsValue _ loc
  | notEq | not | bitNot | listLength => exact .bind fun _ => .result
  | and | or | bitAnd | bitOr | bitXor => exact .bind fun _ => .bind fun _ => .result
  | sleep | random | chr => exact .bind fun _ => .result
  | listGet | letterIn => exact .bind fun _ => .bind fun _ => .result
  | substring => exact .bind fun _ => .bind fun _ => .bind fun _ => .result
  | print | println | input | getChar | cursorX | cursorY | cursorMaxX | cursorMaxY | pi | eq | true | false
  | unixTime | createList => exact .result

theorem applyPlain_yieldsValue (resolved : Resolved) (id : String) (argv : List Operand) (loc : Location) :
    YieldsValue (applyPlain resolved id argv loc) := by
  have hvalue : YieldsValue (plainValue resolved id argv loc) := by
    unfold plainValue
    split
    · exact .bind fun _ => operation_yieldsValue _ argv loc
    · exact .fail
    · unfold callFunction
      split
      · exact .fail
      · split
        · exact .fail
        · exact .bind fun _ => .bind fun _ => .bind fun _ => .bind fun _ => .bind fun _ => .pure nofun
    · exact .pure nofun
  rw [applyPlain_eq]
  intro env s v t hx
  obtain ⟨w, s₁, hw, hrest⟩ := bind_ok hx
  obtain ⟨⟨⟩, s₂, -, hlast⟩ := bind_ok hrest
  obtain ⟨rfl, -⟩ := pure_ok hlast
  exact hvalue env s _ s₁ hw

theorem argument_template {id : String} (h : Lower.argument a loc i env s = .ok (.blockdef id) t) :
    a = .blockdef id := by
  cases a with
  | text | constant =>
    rw [Lower.argument] at h
    cases (pure_ok h).1
  | blockdef id' =>
    rw [Lower.argument] at h
    cases (pure_ok h).1
    rfl
  | color text =>
    have hcolor : YieldsValue (colorArgument text loc) := by
      unfold colorArgument
      split
      · exact .result
      · exact .fail
    rw [Lower.argument] at h
    exact (hcolor env s _ t h id rfl).elim
  | block b =>
    obtain ⟨name, args⟩ := b
    rw [Lower.argument, nested] at h
    obtain ⟨resolved, s₁, -, hrest⟩ := bind_ok h
    cases hplain : resolved.isPlain with
    | false =>
      simp only [hplain] at hrest
      exact (fail_ok hrest).elim
    | true =>
      simp only [hplain, if_true] at hrest
      obtain ⟨argv, s₂, -, happly⟩ := bind_ok hrest
      exact (applyPlain_yieldsValue resolved name argv _ env s₂ _ t happly id rfl).elim

theorem beginFunction_template (h : beginFunction arg loc env s = .ok u t) : ∃ id, arg = .blockdef id := by
  obtain ⟨env', s₁, hread, hmatch⟩ := bind_ok h
  cases hread
  cases arg with
  | blockdef id => exact ⟨id, rfl⟩
  | _ => exact (fail_ok hmatch).elim

theorem hat_template (h : hat .defineBlock least b loc env s = .ok u t) :
    ∃ id rest, b.args = .blockdef id :: rest := by
  obtain ⟨argv, s₁, hargs, hrest⟩ := bind_ok h
  obtain ⟨⟨⟩, s₂, -, hrole⟩ := bind_ok hrest
  obtain ⟨⟨⟩, s₃, hbegin, -⟩ := bind_ok hrole
  obtain ⟨id, hid⟩ := beginFunction_template hbegin
  cases hb : b.args with
  | nil =>
    rw [hb, arguments] at hargs
    obtain ⟨rfl, -⟩ := pure_ok hargs
    cases hid
  | cons a rest =>
    rw [hb, arguments] at hargs
    obtain ⟨v, s₄, hv, hmore⟩ := bind_ok hargs
    obtain ⟨vs, s₅, -, hlast⟩ := bind_ok hmore
    obtain ⟨rfl, -⟩ := pure_ok hlast
    obtain rfl : v = .blockdef id := hid
    exact ⟨id, rest, by rw [argument_template hv]⟩

end Blockwork.Tracing
