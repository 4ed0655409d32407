import Blockwork.Compile.Operation
import Blockwork.Proofs.Evaluation

/-! # Equality
Most comparisons are settled by the types of the operands; a text of the program is first cast to the type of the
other side. -/

namespace Blockwork

namespace Binary64

open Float.Model

theorem beq_comm (a b : Float) : (a == b) = (b == a) := by
  show (a.toModel.unpack.compare b.toModel.unpack == some .eq) = (b.toModel.unpack.compare a.toModel.unpack == some .eq)
  rw [Bool.eq_iff_iff, beq_iff_eq, beq_iff_eq]
  rcases a.toModel.unpack with ⟨⟨⟩⟩ | _ | _ | ⟨⟨⟩, m, e, -⟩ <;>
    rcases b.toModel.unpack with ⟨⟨⟩⟩ | _ | _ | ⟨⟨⟩, m', e', -⟩ <;> dsimp only [UnpackedFloat.compare] <;> simp <;> omega

theorem beq_self (a : Float) : (a == a) = !a.isNaN := by
  show a.toModel.unpack.beq a.toModel.unpack = !a.toModel.unpack.isNaN
  cases a.toModel.unpack with
  | infinity sign => cases sign <;> rfl
  | notANumber | zero => rfl
  | finite sign m e h =>
    show (UnpackedFloat.compare _ _ == some .eq) = true
    cases sign <;> dsimp only [UnpackedFloat.compare] <;> simp

end Binary64

def Boxed.isNaN : Boxed → Bool
  | .float v => v.isNaN
  | _ => false

namespace Session

/-- What is in the box that a value of a type becomes when it is boxed. -/
def boxAs (s : Session) (ty : ValueType) (v : Value) : Boxed :=
  match ty with
  | .integer => .integer v.toInteger
  | .float => .float v.toFloat
  | .bool => .bool v.toBool
  | .color => .color v.toInteger
  | .string => .string v.pointer
  | .list => .list v.pointer
  | .any => s.boxed v.pointer

theorem boxedEq_comm (s : Session) (a b : Boxed) : s.boxedEq a b = s.boxedEq b a := by
  cases a <;> cases b <;> simp only [boxedEq]
  case float.float => exact Binary64.beq_comm _ _
  all_goals exact BEq.comm

theorem boxedEq_self (s : Session) (a : Boxed) : s.boxedEq a a = !a.isNaN := by
  cases a <;> simp [boxedEq, Boxed.isNaN, Binary64.beq_self]

end Session

/-! ### Comparing operands -/

def Operand.isNaN (s : Session) (held : Reg → Value) : Operand → Bool
  | .reg ty r => (s.boxAs ty (held r)).isNaN
  | _ => false

namespace Lower

/-- A block is an error wherever it stands. -/
def Refused {α : Type} (x : Lower α) : Prop :=
  ∀ env l, ∃ e l', x env l = .error e l'

/-- A step gives a register with a truth value and leads to a session. -/
def Tells (x : Lower Reg) (n : Reg) (s : Session) (held : Reg → Value) (v : Bool) (s' : Session) : Prop :=
  Yields x n s held fun d _ t held' => t = s' ∧ held' d = .bool v

/-- A block comes to a truth value and leads to a session. -/
def Decides (x : Lower Operand) (n : Reg) (s : Session) (held : Reg → Value) (v : Bool) (s' : Session) : Prop :=
  Yields x n s held fun o _ t held' => t = s' ∧ ∃ d, o = .reg .bool d ∧ held' d = .bool v

variable {n : Reg} {s s' : Session} {held : Reg → Value} {a b : Operand} {loc : Location}

theorem Refused.bind {α β : Type} {x : Lower α} {f : α → Lower β} (h : Refused x) : Refused (x >>= f) := by
  intro env l
  obtain ⟨e, l', hx⟩ := h env l
  exact ⟨e, l', by simp only [Bind.bind, ReaderT.bind, EStateM.bind, hx]⟩

theorem refused_fail {α : Type} (cause : Cause) : Refused (fail cause loc : Lower α) := fun _ l => ⟨_, l, rfl⟩

theorem eq_decides (h : Tells (equals a b loc) n s held v s') : Decides (operation .eq [a, b] loc) n s held v s' :=
  .bind (h.imp fun d _ _ _ _ _ hd => .pure ⟨hd.1, d, rfl, hd.2⟩)

theorem notEq_decides (h : Tells (equals a b loc) n s held v s') :
    Decides (operation .notEq [a, b] loc) n s held (!v) s' := by
  refine .bind (h.imp fun d n' _ _ _ _ hd => .bind (.unary .not d (.pure ⟨hd.1, n', rfl, ?_⟩)))
  rw [Function.update_self, hd.2]
  rfl

theorem constant_tells (v : Bool) : Tells (constant (.bool v)) n s held v s :=
  .constant _ ⟨rfl, Function.update_self ..⟩

theorem equalValues_tells (ty : ValueType) (l r : Reg) : Tells (equalValues ty l r) n s held
    (s.boxedEq (s.boxAs ty (held l)) (s.boxAs ty (held r))) s := by
  cases ty with
  | string => exact .call .stringIsEq [l, r] ⟨rfl, Function.update_self ..⟩
  | any => exact .call .anyIsEq [l, r] ⟨rfl, Function.update_self ..⟩
  | _ => exact .binary _ l r ⟨rfl, Function.update_self ..⟩

theorem castToValue_text (n : Reg) (s : Session) (held : Reg → Value) (loc : Location) (t : String) (hty : ty ≠ .list) :
    ∃ d n' s' held', Yields (castToValue (.literal t) ty loc) n s held
      fun o top u held'' => o = .reg ty d ∧ top = n' ∧ u = s' ∧ held'' = held' := by
  cases ty with
  | list => exact absurd rfl hty
  | integer | float | bool | color => exact ⟨_, _, _, _, .bind (.constant _ (.pure ⟨rfl, rfl, rfl, rfl⟩))⟩
  | string => exact ⟨_, _, _, _, .bind (.bind (.constant _ (.call _ _ (.pure ⟨rfl, rfl, rfl, rfl⟩))))⟩
  | any =>
    exact ⟨_, _, _, _, .bind (.bind (.bind (.constant _ (.call _ _ (.call _ _ (.pure ⟨rfl, rfl, rfl, rfl⟩))))))⟩

theorem equalOperands_same (ty : ValueType) (l r : Reg) :
    equalOperands (.reg ty l) (.reg ty r) loc = equalValues ty l r :=
  if_pos rfl

theorem equals_tells (ty : ValueType) (l r : Reg) : Tells (equals (.reg ty l) (.reg ty r) loc) n s held
    (s.boxedEq (s.boxAs ty (held l)) (s.boxAs ty (held r))) s := by
  have hequals : equals (.reg ty l) (.reg ty r) loc = equalValues ty l r := if_pos rfl
  rw [hequals]
  exact equalValues_tells ty l r

/-- Two steps are both errors, or both come to the same truth value in the same way. -/
def Agree (n : Reg) (s : Session) (held : Reg → Value) (x y : Lower Reg) : Prop :=
  Refused x ∧ Refused y ∨ ∃ v s', Tells x n s held v s' ∧ Tells y n s held v s'

theorem text_agrees (t : String) (ty : ValueType) (r : Reg) :
    Agree n s held (equals (.literal t) (.reg ty r) loc) (equals (.reg ty r) (.literal t) loc) := by
  by_cases hlist : ty = .list
  · subst hlist
    have hcast : Refused (castTo (.literal t) (.value .list) loc) := Refused.bind (refused_fail _)
    exact Or.inl ⟨hcast.bind, hcast.bind⟩
  · obtain ⟨d, n', s', held', hcast⟩ := castToValue_text n s held loc t hlist
    refine Or.inr ⟨s'.boxedEq (s'.boxAs ty (held' d)) (s'.boxAs ty (held' r)), s', ?_, ?_⟩
    · refine .bind (hcast.imp fun o _ _ _ _ _ h => ?_)
      obtain ⟨rfl, rfl, rfl, rfl⟩ := h
      rw [equalOperands_same]
      exact equalValues_tells ty d r
    · refine .bind (hcast.imp fun o _ _ _ _ _ h => ?_)
      obtain ⟨rfl, rfl, rfl, rfl⟩ := h
      rw [equalOperands_same, Session.boxedEq_comm]
      exact equalValues_tells ty r d

theorem constants_agree (v : Bool) : Agree n s held (constant (.bool v)) (constant (.bool v)) :=
  Or.inr ⟨v, s, constant_tells v, constant_tells v⟩

theorem equals_agree (a b : Operand) : Agree n s held (equals a b loc) (equals b a loc) := by
  cases a with
  | blockdef => exact Or.inl ⟨refused_fail _, by cases b <;> exact refused_fail _⟩
  | nothing =>
    cases b with
    | blockdef => exact Or.inl ⟨refused_fail _, refused_fail _⟩
    | nothing => exact constants_agree true
    | literal | reg => exact constants_agree false
  | literal t =>
    cases b with
    | blockdef => exact Or.inl ⟨refused_fail _, refused_fail _⟩
    | nothing => exact constants_agree false
    | literal u =>
      have hcomm : equals (.literal u) (.literal t) loc = constant (.bool (t == u)) := by rw [BEq.comm]; rfl
      rw [hcomm]
      exact constants_agree (t == u)
    | reg ty r => exact text_agrees t ty r
  | reg ty l =>
    cases b with
    | blockdef => exact Or.inl ⟨refused_fail _, refused_fail _⟩
    | nothing => exact constants_agree false
    | literal t =>
      have hturned : Agree n s held (equals (.literal t) (.reg ty l) loc) _ := text_agrees t ty l
      rcases hturned with h | ⟨v, s', h⟩
      · exact Or.inl h.symm
      · exact Or.inr ⟨v, s', h.symm⟩
    | reg ty' r =>
      by_cases hty : ty = ty'
      · subst hty
        refine Or.inr ⟨_, s, equals_tells ty l r, ?_⟩
        rw [Session.boxedEq_comm]
        exact equals_tells ty r l
      · have hno : equals (.reg ty l) (.reg ty' r) loc = constant (.bool false) := if_neg hty
        have hno' : equals (.reg ty' r) (.reg ty l) loc = constant (.bool false) := if_neg (Ne.symm hty)
        rw [hno, hno']
        exact constants_agree false

theorem equals_self (ho : a.dataType ≠ .blockdef) : Tells (equals a a loc) n s held (!a.isNaN s held) s := by
  cases a with
  | blockdef => exact absurd rfl ho
  | nothing => exact constant_tells true
  | literal t =>
    have hself : equals (.literal t) (.literal t) loc = constant (.bool true) := by
      rw [← beq_self_eq_true t]
      rfl
    exact hself ▸ constant_tells true
  | reg ty r =>
    rw [Operand.isNaN, ← Session.boxedEq_self]
    exact equals_tells ty r r

/-- Two operands in either order are both refused, or come to the same truth value, of which the other block is the
negation; for two values of one type it is the equality of their boxes; and every value equals itself, but for a NaN.
-/
theorem equality_coherent (n : Reg) (s : Session) (held : Reg → Value) (loc : Location) : (∀ a b : Operand,
      (∀ op ∈ [Operation.eq, .notEq], Refused (operation op [a, b] loc) ∧ Refused (operation op [b, a] loc)) ∨
      ∃ v s', Decides (operation .eq [a, b] loc) n s held v s' ∧ Decides (operation .eq [b, a] loc) n s held v s' ∧
        Decides (operation .notEq [a, b] loc) n s held (!v) s' ∧
        Decides (operation .notEq [b, a] loc) n s held (!v) s') ∧
    (∀ ty r, ty ≠ .any → ∃ e : Entry, toAny (.reg ty r) loc = call e [r] ∧
      ∀ v (t : Session), e.run [v] t = Session.anyResult (t.allocAny (t.boxAs ty v))) ∧
    (∀ ty l r p q, s.boxed p = s.boxAs ty (held l) → s.boxed q = s.boxAs ty (held r) →
      ∃ v, Decides (operation .eq [.reg ty l, .reg ty r] loc) n s held v s ∧
        Entry.anyIsEq.run [.any p, .any q] s = (.bool v, s)) ∧
    ∀ a : Operand, a.dataType ≠ .blockdef → Decides (operation .eq [a, a] loc) n s held (!a.isNaN s held) s := by
  refine ⟨fun a b => ?_, fun ty r hty => ?_, fun ty l r p q hp hq => ?_, fun a ha => eq_decides (equals_self ha)⟩
  · have hagree : Agree n s held (equals a b loc) _ := equals_agree a b
    rcases hagree with ⟨h, h'⟩ | ⟨v, s', h, h'⟩
    · refine Or.inl fun op hop => ?_
      simp only [List.mem_cons, List.not_mem_nil, or_false] at hop
      rcases hop with rfl | rfl
      · exact ⟨h.bind, h'.bind⟩
      · exact ⟨h.bind, h'.bind⟩
    · exact Or.inr ⟨v, s', eq_decides h, eq_decides h', notEq_decides h, notEq_decides h'⟩
  · cases ty with
    | integer => exact ⟨.anyFromInteger, rfl, fun _ _ => rfl⟩
    | float => exact ⟨.anyFromFloat, rfl, fun _ _ => rfl⟩
    | bool => exact ⟨.anyFromBool, rfl, fun _ _ => rfl⟩
    | color => exact ⟨.anyFromColor, rfl, fun _ _ => rfl⟩
    | string => exact ⟨.anyFromString, rfl, fun _ _ => rfl⟩
    | list => exact ⟨.anyFromList, rfl, fun _ _ => rfl⟩
    | any => exact absurd rfl hty
  · refine ⟨_, eq_decides (equals_tells ty l r), ?_⟩
    rw [← hp, ← hq]
    rfl

end Lower

end Blockwork
