import Blockwork.Proofs.Typing.Parallel

/-! # Casts and plain blocks side by side
Every cast gives a register of the type that is asked for, and every plain block other than those on variables an
operand of the type it says. -/

namespace Blockwork.Typing

open Lower

variable {P : Location → Location → Prop} {calm : Bool} {known : Pairs} {loc loc' : Location}
  {a b left left' right right' : Operand} (h : Like known a b) (hl : Like known left left')
  (hr : Like known right right') (hloc : P loc loc')

/-! ### Casts -/

section Casts

include h hloc

theorem castError_parallel {α : Type} {K : Shape α} (ty : DataType) :
    Parallel P calm loud known (castError a ty loc) (castError b ty loc') K := by
  rw [castError, castError, h.dataType]
  exact .fail rfl hloc

theorem toInteger_parallel :
    Parallel P calm loud known (toInteger a loc) (toInteger b loc') (.reg (.value .integer)) := by
  unfold toInteger
  cases h with
  | nothing => exact .constant (.integer 0) rfl
  | literal text => exact .constant (.integer _) rfl
  | blockdef id => exact .fail rfl hloc
  | reg ty hqr =>
    cases ty with
    | integer => exact .pure hqr
    | float | bool | color => exact .unary hqr rfl
    | string | any => exact .call₁ hqr rfl
    | list => exact .constant (.integer 0) rfl

theorem toFloat_parallel : Parallel P calm loud known (toFloat a loc) (toFloat b loc') (.reg (.value .float)) := by
  unfold toFloat
  cases h with
  | nothing | literal => exact .constant (.float _) rfl
  | blockdef id => exact .fail rfl hloc
  | reg ty hqr =>
    cases ty with
    | integer | color => exact .unary hqr rfl
    | float => exact .pure hqr
    | bool => exact .bind (.unary hqr rfl) fun _ _ _ _ hbit => .unary hbit rfl
    | string | any => exact .call₁ hqr rfl
    | list => exact .constant (.float _) rfl

theorem toBool_parallel : Parallel P calm loud known (toBool a loc) (toBool b loc') (.reg (.value .bool)) := by
  unfold Lower.toBool
  cases h with
  | nothing => exact .constant (.bool false) rfl
  | literal text => exact .constant (.bool _) rfl
  | blockdef id => exact .fail rfl hloc
  | reg ty hqr =>
    cases ty with
    | integer | float => exact .unary hqr rfl
    | bool => exact .pure hqr
    | color => exact .fail rfl hloc
    | string => exact .bind (.call₁ hqr rfl) fun _ _ _ _ hlength => .unary hlength rfl
    | list => exact .constant (.bool false) rfl
    | any => exact .call₁ hqr rfl

theorem toColor_parallel : Parallel P calm true known (toColor a loc) (toColor b loc') (.reg (.value .color)) := by
  unfold toColor
  cases h with
  | nothing => exact .constant (.color 0) rfl
  | literal text => exact .constant (.color _) rfl
  | blockdef id => exact .fail rfl hloc
  | reg ty hqr =>
    cases ty with
    | integer | float | bool => exact .unary hqr rfl
    | color => exact .pure hqr
    | string => exact .bind (.call₁ hqr rfl) fun _ _ _ _ hany => .call₁ hany rfl
    | list => exact .fail rfl hloc
    | any => exact .call₁ hqr rfl

omit h hloc in
theorem stringLiteral_parallel (text : String) :
    Parallel P calm true known (stringLiteral text) (stringLiteral text) (.reg (.value .string)) :=
  .bind (.constant (.text _) rfl) fun _ _ _ _ htext => .call₁ htext rfl

theorem toString_parallel :
    Parallel P calm true known (Lower.toString a loc) (Lower.toString b loc') (.reg (.value .string)) := by
  unfold Lower.toString
  cases h with
  | nothing => exact stringLiteral_parallel _
  | literal text => exact stringLiteral_parallel text
  | blockdef id => exact .fail rfl hloc
  | reg ty hqr =>
    cases ty with
    | string => exact .pure hqr
    | list => exact stringLiteral_parallel _
    | _ => exact .call₁ hqr rfl

theorem toList_parallel : Parallel P calm true known (toList a loc) (toList b loc') (.reg (.value .list)) := by
  unfold toList
  cases h with
  | reg ty hqr =>
    cases ty with
    | list => exact .pure hqr
    | any => exact .call₁ hqr rfl
    | _ => exact .fail rfl hloc
  | _ => exact .fail rfl hloc

theorem toAny_parallel : Parallel P calm true known (toAny a loc) (toAny b loc') (.reg (.value .any)) := by
  unfold toAny
  cases h with
  | nothing => exact .call₀ rfl
  | literal text => exact .bind (stringLiteral_parallel text) fun _ _ _ _ hstring => .call₁ hstring rfl
  | blockdef id => exact .fail rfl hloc
  | reg ty hqr =>
    cases ty with
    | any => exact .pure hqr
    | _ => exact .call₁ hqr rfl

theorem toElement_parallel : Parallel P calm true known (toElement a loc) (toElement b loc') (.reg .element) := by
  cases h with
  | nothing => exact .constant (.element .nothing) rfl
  | literal text => exact .bind (stringLiteral_parallel text) fun _ _ _ _ hstring => .element hstring
  | blockdef id => exact .fail rfl hloc
  | reg ty hqr => exact .element hqr

theorem castToValue_parallel (ty : ValueType) :
    Parallel P calm true known (castToValue a ty loc) (castToValue b ty loc') .operand := by
  cases ty with
  | integer => exact .operand (toInteger_parallel h hloc)
  | float => exact .operand (toFloat_parallel h hloc)
  | bool => exact .operand (toBool_parallel h hloc)
  | color => exact .operand (toColor_parallel h hloc)
  | string => exact .operand (toString_parallel h hloc)
  | list => exact .operand (toList_parallel h hloc)
  | any => exact .operand (toAny_parallel h hloc)

theorem castTo_parallel (ty : DataType) :
    Parallel P calm true known (castTo a ty loc) (castTo b ty loc') .operand := by
  cases ty with
  | value ty => exact castToValue_parallel h hloc ty
  | _ => exact castError_parallel h hloc _

end Casts

/-! ### Numbers -/

theorem divideLiteral_parallel (d : Division) (n : Int64) (hq : (q, r, .value .integer) ∈ known) (hloc : P loc loc') :
    Parallel P calm loud known (divideLiteral d q n loc) (divideLiteral d r n loc') (.reg (.value .integer)) := by
  unfold divideLiteral
  split
  · exact .fail rfl hloc
  · split
    · cases d with
      | quotient => exact .unary hq rfl
      | remainder => exact .constant (.integer 0) rfl
    · refine .bind (.constant (.integer n) rfl) fun _ _ _ hk hn => ?_
      cases d with
      | quotient | remainder => exact .binary (hk hq) hn rfl

section Numbers

include hr hloc

theorem divide_parallel (d : Division) (hq : (q, r, .value .integer) ∈ known) :
    Parallel P calm loud known (divide d q right loc) (divide d r right' loc') (.reg (.value .integer)) := by
  have hother (op : BinaryOp) (hop : op.accepts (.value .integer) (.value .integer) = true) :
      Parallel P calm loud known (do let r ← toInteger right loc; binary op q r)
        (do let r' ← toInteger right' loc'; binary op r r') (.reg (.value op.result)) :=
    .bind (toInteger_parallel hr hloc) fun _ _ _ hk hn => .binary (hk hq) hn hop
  cases hr with
  | literal text => exact divideLiteral_parallel d _ hq hloc
  | _ =>
    cases d with
    | quotient => exact hother .div rfl
    | remainder => exact hother .rem rfl

include hl

theorem byLeftOperand_parallel {result : ValueType → ValueType} {floats : Reg → Reg → Lower Reg}
    {integers integers' : Reg → Operand → Lower Reg}
    (hf : ∀ known' q q' r r', (q, q', .value .float) ∈ known' → (r, r', .value .float) ∈ known' →
      Parallel P calm loud known' (floats q r) (floats q' r') (.reg (.value (result .float))))
    (hi : ∀ known' q q', Like known' right right' → (q, q', .value .integer) ∈ known' →
      Parallel P calm loud known' (integers q right) (integers' q' right') (.reg (.value (result .integer)))) :
    Parallel P calm loud known (byLeftOperand left right loc result floats integers)
      (byLeftOperand left' right' loc' result floats integers') .operand := by
  have hother : Parallel P calm loud known
      (do let l ← toInteger left loc; return .reg (result .integer) (← integers l right))
      (do let l ← toInteger left' loc'; return .reg (result .integer) (← integers' l right')) .operand :=
    .bind (toInteger_parallel hl hloc) fun _ _ _ hk hq => .operand (hi _ _ _ (hr.mono hk) hq)
  cases hl with
  | reg ty hq =>
    cases ty with
    | float => exact .bind (toFloat_parallel hr hloc) fun _ _ _ hk hr => .operand (hf _ _ _ _ _ (hk hq) hr)
    | _ => exact hother
  | _ => exact hother

theorem arithmetic_parallel (hf : floatOp.accepts (.value .float) (.value .float) = true)
    (hf' : floatOp.result = .float) (hi : intOp.accepts (.value .integer) (.value .integer) = true)
    (hi' : intOp.result = .integer) : Parallel P calm loud known (arithmetic floatOp intOp left right loc)
      (arithmetic floatOp intOp left' right' loc') .operand := by
  refine byLeftOperand_parallel hl hr hloc (fun _ _ _ _ _ hq hr => ?_) fun _ _ _ hr hq => ?_
  · rw [id, ← hf']
    exact .binary hq hr hf
  · rw [id, ← hi']
    exact .bind (toInteger_parallel hr hloc) fun _ _ _ hk hr => .binary (hk hq) hr hi

theorem quotient_parallel :
    Parallel P calm loud known (quotient left right loc) (quotient left' right' loc') .operand :=
  byLeftOperand_parallel hl hr hloc (fun _ _ _ _ _ hq hr => .binary hq hr rfl) fun _ _ _ hr hq =>
    divide_parallel hr hloc .quotient hq

theorem remainder_parallel :
    Parallel P calm loud known (remainder left right loc) (remainder left' right' loc') .operand :=
  byLeftOperand_parallel hl hr hloc (fun _ _ _ _ _ hq hr => .call₂ hq hr rfl) fun _ _ _ hr hq =>
    divide_parallel hr hloc .remainder hq

theorem power_parallel : Parallel P calm loud known (power left right loc) (power left' right' loc') .operand :=
  byLeftOperand_parallel hl hr hloc (fun _ _ _ _ _ hq hr => .call₂ hq hr rfl) fun _ _ _ hr hq =>
    .bind (toInteger_parallel hr hloc) fun _ _ _ hk hr => .call₂ (hk hq) hr rfl

theorem ordering_parallel (c : Comparison) :
    Parallel P calm loud known (ordering c left right loc) (ordering c left' right' loc') .operand := by
  refine byLeftOperand_parallel hl hr hloc (fun _ _ _ _ _ hq hr => .binary hq hr rfl) fun _ _ _ hr hq => ?_
  refine .bind (toInteger_parallel hr hloc) fun _ _ _ hk hr => .binary (hk hq) hr ?_
  cases c <;> rfl

theorem mathFunction_parallel :
    Parallel P calm loud known (mathFunction left right loc) (mathFunction left' right' loc') .operand := by
  cases hl with
  | literal name =>
    simp only [mathFunction]
    split
    · exact .fail rfl hloc
    · refine .bind (toFloat_parallel hr hloc) fun _ _ _ _ hx => ?_
      exact .bind (.constant (.integer _) rfl) fun _ _ _ hk hindex => .operand (.call₂ hindex (hk hx) rfl)
  | _ => exact .fail rfl hloc

omit hl hr hloc in
theorem equalValues_parallel (ty : ValueType) (hq : (q, q', .value ty) ∈ known) (hr : (r, r', .value ty) ∈ known) :
    Parallel P calm loud known (equalValues ty q r) (equalValues ty q' r') (.reg (.value .bool)) := by
  unfold equalValues
  cases ty with
  | string | any => exact .call₂ hq hr rfl
  | _ => exact .binary hq hr rfl

theorem equalOperands_parallel :
    Parallel P calm loud known (equalOperands left right loc) (equalOperands left' right' loc')
      (.reg (.value .bool)) := by
  cases hl with
  | reg ty hq =>
    cases hr with
    | reg ty' hr =>
      simp only [equalOperands]
      split
      next heq =>
        subst heq
        exact equalValues_parallel ty hq hr
      next => exact .constant (.bool false) rfl
    | _ => exact .fail rfl hloc
  | _ => exact .fail rfl hloc

theorem equals_parallel :
    Parallel P calm true known (equals left right loc) (equals left' right' loc') (.reg (.value .bool)) := by
  cases hl with
  | blockdef => exact .fail rfl hloc
  | nothing =>
    cases hr with
    | blockdef => exact .fail rfl hloc
    | _ => exact .constant (.bool _) rfl
  | literal text =>
    cases hr with
    | blockdef => exact .fail rfl hloc
    | nothing | literal => exact .constant (.bool _) rfl
    | reg ty hr =>
      exact .bind (castTo_parallel (.literal text) hloc (.value ty)) fun _ _ _ hk hl =>
        equalOperands_parallel hl (.reg ty (hk hr)) hloc
  | reg ty hl =>
    cases hr with
    | blockdef => exact .fail rfl hloc
    | nothing => exact .constant (.bool false) rfl
    | literal text =>
      exact .bind (castTo_parallel (.literal text) hloc (.value ty)) fun _ _ _ hk hr =>
        equalOperands_parallel (.reg ty (hk hl)) hr hloc
    | reg ty' hr => exact equalOperands_parallel (.reg ty hl) (.reg ty' hr) hloc

end Numbers

/-! ### Printing and text -/

theorem printLiteral_parallel (text : String) :
    Parallel P calm loud known (printLiteral text) (printLiteral text) (.reg (.value .integer)) := by
  unfold printLiteral
  split
  · exact .constant (.integer 0) rfl
  · exact .bind (.constant (.text _) rfl) fun _ _ _ _ htext => .call₁ htext rfl

section Text

include h

theorem typeName_parallel : Parallel P calm true known (typeName a) (typeName b) .operand := by
  unfold typeName
  cases h with
  | reg ty hqr =>
    cases ty with
    | any => exact .operand (.call₁ hqr rfl)
    | _ => exact .pure (.literal _)
  | _ => exact .pure (.literal _)

include hloc

theorem printOperand_parallel :
    Parallel P calm loud known (printOperand a loc) (printOperand b loc') (.reg (.value .integer)) := by
  unfold printOperand
  cases h with
  | nothing => exact .constant (.integer 0) rfl
  | literal text => exact printLiteral_parallel text
  | blockdef id => exact .fail rfl hloc
  | reg ty hqr => cases ty <;> exact .call₁ hqr rfl

theorem printLine_parallel :
    Parallel P calm loud known (printLine a loc) (printLine b loc') (.reg (.value .integer)) :=
  .bind (printOperand_parallel h hloc) fun _ _ _ _ hq =>
    .bind (printLiteral_parallel _) fun _ _ _ hk hr => .binary (hk hq) hr rfl

theorem stringCall_parallel (he : e.fits calm true [.value .string] = true) (hy : e.yields = .value .integer) :
    Parallel P calm true known (do return .reg .integer (← call e [← Lower.toString a loc]))
      (do return .reg .integer (← call e [← Lower.toString b loc'])) .operand :=
  .bind (toString_parallel h hloc) fun _ _ _ _ hstring => .operand (hy ▸ .call₁ hstring he)

theorem length_parallel : Parallel P calm true known (Lower.length a loc) (Lower.length b loc') .operand := by
  have hother := @stringCall_parallel P calm known loc loc' a b h hloc .stringLength rfl rfl
  cases h with
  | literal text => exact .operand (.constant (.integer _) rfl)
  | _ => exact hother

theorem ord_parallel : Parallel P calm true known (ord a loc) (ord b loc') .operand := by
  have hother := @stringCall_parallel P calm known loc loc' a b h hloc .stringOrd rfl rfl
  cases h with
  | literal text => exact .operand (.constant (.integer _) rfl)
  | _ => exact hother

theorem integerCall_parallel (he : e.fits calm loud [.value .integer] = true) (hy : e.yields = .value ty) :
    Parallel P calm loud known (integerCall e ty [a] loc) (integerCall e ty [b] loc') .operand := by
  simp only [integerCall, List.mapM_cons, List.mapM_nil, bind_assoc, pure_bind]
  exact .bind (toInteger_parallel h hloc) fun _ _ _ _ hn => .operand (hy ▸ .call₁ hn he)

end Text

section Binary

include hl hr hloc

theorem join_parallel : Parallel P calm true known (join left right loc) (join left' right' loc') .operand := by
  have hother : Parallel P calm true known
      (do return .reg .string (← call .stringJoin [← Lower.toString left loc, ← Lower.toString right loc]))
      (do return .reg .string (← call .stringJoin [← Lower.toString left' loc', ← Lower.toString right' loc']))
      .operand :=
    .bind (toString_parallel hl hloc) fun _ _ _ hk hq =>
      .bind (toString_parallel (hr.mono hk) hloc) fun _ _ _ hk' hr => .operand (.call₂ (hk' hq) hr rfl)
  cases hl with
  | literal text =>
    cases hr with
    | literal text' => exact .pure (.literal _)
    | _ => exact hother
  | _ => exact hother

theorem logical_parallel (hop : op.accepts (.value .bool) (.value .bool) = true) (hresult : op.result = .bool) :
    Parallel P calm loud known (logical op left right loc) (logical op left' right' loc') .operand := by
  refine .bind (toBool_parallel hl hloc) fun _ _ _ hk hq => ?_
  refine .bind (toBool_parallel (hr.mono hk) hloc) fun _ _ _ hk' hr => .operand ?_
  exact hresult ▸ .binary (hk' hq) hr hop

theorem bitwise_parallel (hop : op.accepts (.value .integer) (.value .integer) = true)
    (hresult : op.result = .integer) :
    Parallel P calm loud known (bitwise op left right loc) (bitwise op left' right' loc') .operand := by
  refine .bind (toInteger_parallel hl hloc) fun _ _ _ hk hq => ?_
  refine .bind (toInteger_parallel (hr.mono hk) hloc) fun _ _ _ hk' hr => .operand ?_
  exact hresult ▸ .binary (hk' hq) hr hop

theorem random_parallel : Parallel P false loud known (integerCall .random .integer [left, right] loc)
      (integerCall .random .integer [left', right'] loc') .operand := by
  simp only [integerCall, List.mapM_cons, List.mapM_nil, bind_assoc, pure_bind]
  refine .bind (toInteger_parallel hl hloc) fun _ _ _ hk hq => ?_
  exact .bind (toInteger_parallel (hr.mono hk) hloc) fun _ _ _ hk' hr => .operand (.call₂ (hk' hq) hr rfl)

end Binary

/-- Operations that read nothing but their operands and do nothing but write registers. -/
def Operation.isPlain (calm : Bool) : Operation → Bool
  | .declare | .getVariable | .setVariable | .leave => false
  | .random | .unixTime => !calm
  | _ => true

theorem operation_parallel (hop : Operation.isPlain calm op = true) (h : List.Forall₂ (Like known) argv argv')
    (hloc : P loc loc') : Parallel P calm true known (operation op argv loc) (operation op argv' loc') .operand := by
  have h₀ := Like.getD h 0
  have h₁ := Like.getD h 1
  have h₂ := Like.getD h 2
  unfold operation
  cases op with
  | declare | getVariable | setVariable | leave => cases hop
  | print => exact .operand (printOperand_parallel h₀ hloc)
  | println => exact .operand (printLine_parallel h₀ hloc)
  | input | getChar | cursorX | cursorY | cursorMaxX | cursorMaxY | createList => exact .operand (.call₀ rfl)
  | setForeground | setBackground | setClearColor =>
    exact .bind (toColor_parallel h₀ hloc) fun _ _ _ _ hcolor => .statement (.call₁ hcolor rfl)
  | resetColors | clear | collect => exact .statement (.call₀ rfl)
  | setCursor =>
    exact .bind (toInteger_parallel h₀ hloc) fun _ _ _ hk hx =>
      .bind (toInteger_parallel (h₁.mono hk) hloc) fun _ _ _ hk' hy => .statement (.call₂ (hk' hx) hy rfl)
  | plus | minus | mult => exact arithmetic_parallel h₀ h₁ hloc rfl rfl rfl rfl
  | div => exact quotient_parallel h₀ h₁ hloc
  | rem => exact remainder_parallel h₀ h₁ hloc
  | pow => exact power_parallel h₀ h₁ hloc
  | math => exact mathFunction_parallel h₀ h₁ hloc
  | pi => exact .operand (.constant (.float _) rfl)
  | less | lessEq | more | moreEq => exact ordering_parallel h₀ h₁ hloc _
  | eq => exact .operand (equals_parallel h₀ h₁ hloc)
  | notEq => exact .bind (equals_parallel h₀ h₁ hloc) fun _ _ _ _ heq => .operand (.unary heq rfl)
  | not => exact .bind (toBool_parallel h₀ hloc) fun _ _ _ _ hbool => .operand (.unary hbool rfl)
  | and | or => exact logical_parallel h₀ h₁ hloc rfl rfl
  | true | false => exact .operand (.constant (.bool _) rfl)
  | bitNot => exact .bind (toInteger_parallel h₀ hloc) fun _ _ _ _ hn => .operand (.unary hn rfl)
  | bitAnd | bitOr | bitXor => exact bitwise_parallel h₀ h₁ hloc rfl rfl
  | sleep | chr => exact integerCall_parallel h₀ hloc rfl rfl
  | random =>
    obtain rfl : calm = false := by simpa [Operation.isPlain] using hop
    exact random_parallel h₀ h₁ hloc
  | unixTime =>
    obtain rfl : calm = false := by simpa [Operation.isPlain] using hop
    exact .operand (.call₀ rfl)
  | toInteger => exact castToValue_parallel h₀ hloc .integer
  | toFloat => exact castToValue_parallel h₀ hloc .float
  | toString => exact castToValue_parallel h₀ hloc .string
  | toBool => exact castToValue_parallel h₀ hloc .bool
  | toColor => exact castToValue_parallel h₀ hloc .color
  | typeOf => exact typeName_parallel h₀
  | nothing | comment => exact .pure .nothing
  | listAdd =>
    exact .bind (toList_parallel h₀ hloc) fun _ _ _ hk hlist =>
      .bind (toElement_parallel (h₁.mono hk) hloc) fun _ _ _ hk' hx => .statement (.call₂ (hk' hlist) hx rfl)
  | listGet =>
    exact .bind (toList_parallel h₀ hloc) fun _ _ _ hk hlist =>
      .bind (toInteger_parallel (h₁.mono hk) hloc) fun _ _ _ hk' hi => .operand (.call₂ (hk' hlist) hi rfl)
  | listSet =>
    refine .bind (toList_parallel h₀ hloc) fun _ _ _ hk hlist => ?_
    refine .bind (toInteger_parallel (h₁.mono hk) hloc) fun _ _ _ hk' hi => ?_
    refine .bind (toElement_parallel ((h₂.mono hk).mono hk') hloc) fun _ _ _ hk'' hx => ?_
    exact .statement (.call₃ (hk'' (hk' hlist)) (hk'' hi) hx rfl)
  | listLength => exact .bind (toList_parallel h₀ hloc) fun _ _ _ _ hlist => .operand (.call₁ hlist rfl)
  | join => exact join_parallel h₀ h₁ hloc
  | letterIn =>
    exact .bind (toInteger_parallel h₀ hloc) fun _ _ _ hk hi =>
      .bind (toString_parallel (h₁.mono hk) hloc) fun _ _ _ hk' htext => .operand (.call₂ (hk' hi) htext rfl)
  | substring =>
    refine .bind (toInteger_parallel h₀ hloc) fun _ _ _ hk hfirst => ?_
    refine .bind (toInteger_parallel (h₁.mono hk) hloc) fun _ _ _ hk' hlast => ?_
    refine .bind (toString_parallel ((h₂.mono hk).mono hk') hloc) fun _ _ _ hk'' htext => ?_
    exact .operand (.call₃ (hk'' (hk' hfirst)) (hk'' hlast) htext rfl)
  | length => exact length_parallel h₀ hloc
  | ord => exact ord_parallel h₀ hloc

theorem colorArgument_parallel (text : String) (hloc : P loc loc') :
    Parallel P calm loud known (colorArgument text loc) (colorArgument text loc') .operand := by
  unfold colorArgument
  cases Text.parseColor text.toList with
  | none => exact .fail rfl hloc
  | some v => exact .operand (.constant (.color v) rfl)

theorem requireArguments_parallel (id : String) (least got : Nat) (hloc : P loc loc') :
    Parallel P calm loud known (requireArguments id least got loc) (requireArguments id least got loc') .unit := by
  unfold requireArguments
  split
  · exact .fail rfl hloc
  · exact .pure trivial

end Blockwork.Typing
