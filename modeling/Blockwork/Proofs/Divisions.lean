import Mathlib.Algebra.GroupWithZero.Nat
import Blockwork.Proofs.Equality

/-! # Integer division
A divisor that is known only when the program runs is guarded, and one that is written in the program is looked
at while compiling. -/

namespace Blockwork

namespace Number

/-- Division towards zero. The quotient is wrapped, what is left over has the sign of the dividend, and a divisor of
zero gives zeros. -/
structure Truncated (a n q r : Int64) : Prop where
  zero : n = 0 → q = 0 ∧ r = 0
  quotient : n ≠ 0 → q.toInt = (a.toInt.tdiv n.toInt).bmod (2 ^ 64)
  sum : n ≠ 0 → q * n + r = a
  small : n ≠ 0 → r.toInt.natAbs < n.toInt.natAbs
  sign : r ≠ 0 → (r < 0 ↔ a < 0)

theorem machineDivides_of_ne (a : Int64) (hzero : n ≠ 0) (hone : n ≠ -1) : machineDivides a n = true := by
  simp [machineDivides, hzero, hone]

theorem machineDivides_safe (a : Int64) (h : n ≠ 0) : machineDivides a (safeDivisor n) = true := by
  unfold safeDivisor
  split
  · exact machineDivides_of_ne a (by decide) (by decide)
  · exact machineDivides_of_ne a h ‹_›

theorem quotient_eq (hzero : n ≠ 0) (hone : n ≠ -1) : quotient a n = a / n := by
  simp [quotient, safeDivisor, machineDiv?, machineDivides_of_ne, hzero, hone]

theorem remainder_eq (hzero : n ≠ 0) (hone : n ≠ -1) : remainder a n = a % n := by
  simp [remainder, safeDivisor, machineRem?, machineDivides_of_ne, hzero, hone]

theorem toInt_quotient (h : n ≠ 0) : (quotient a n).toInt = (a.toInt.tdiv n.toInt).bmod (2 ^ 64) := by
  by_cases hone : n = -1
  · subst hone
    simp [quotient]
  · rw [quotient_eq h hone, Int64.toInt_div]

theorem toInt_remainder (h : n ≠ 0) : (remainder a n).toInt = a.toInt.tmod n.toInt := by
  by_cases hone : n = -1
  · subst hone
    simp [remainder]
  · rw [remainder_eq h hone, Int64.toInt_mod]

theorem truncated (a n : Int64) : Truncated a n (quotient a n) (remainder a n) := by
  refine ⟨fun h => ⟨if_pos h, if_pos h⟩, toInt_quotient, fun h => ?_, fun h => ?_, fun hr => ?_⟩
  · rw [← Int64.toInt_inj, Int64.toInt_add, Int64.toInt_mul, toInt_quotient h, toInt_remainder h]
    simp [Int.tdiv_mul_add_tmod]
  · rw [toInt_remainder h, Int.natAbs_tmod]
    refine Nat.mod_lt _ (Int.natAbs_pos.mpr fun hn => h ?_)
    exact Int64.toInt_inj.mp hn
  · have hn : n ≠ 0 := fun h => hr (if_pos h)
    have hne : a.toInt.tmod n.toInt ≠ 0 := fun h => hr (Int64.toInt_inj.mp ((toInt_remainder hn).trans h))
    rw [Int64.lt_iff_toInt_lt, Int64.lt_iff_toInt_lt, toInt_remainder hn, Int64.toInt_zero]
    have hpos := @Int.tmod_nonneg a.toInt n.toInt
    have hneg := @Int.tmod_nonneg (-a.toInt) n.toInt
    rw [Int.neg_tmod] at hneg
    omega

end Number

/-! ### Lowering -/

/-- What an operand casts to as an integer. -/
def Operand.integer? (s : Session) (held : Reg → Value) : Operand → Option Int64
  | .literal t => some (Text.leadingInt (Text.ofString t))
  | .reg ty r => some (s.integerOf (s.boxAs ty (held r)))
  | .nothing => some 0
  | .blockdef _ => none

def Operand.isFloat : Operand → Bool
  | .reg .float _ => true
  | _ => false

def Operand.Below (n : Reg) (o : Operand) : Prop := ∀ ty r, o = .reg ty r → r < n

namespace Lower

def Division.block : Division → Operation
  | .quotient => .div
  | .remainder => .rem

def Division.run : Division → Int64 → Int64 → Int64
  | .quotient => Number.quotient
  | .remainder => Number.remainder

/-- The machine's own division, without a guard. -/
def Division.machine : Division → BinaryOp
  | .quotient => .machineDiv
  | .remainder => .machineRem

variable {s : Session} {held : Reg → Value} {n l : Reg} {a m : Int64} {left right : Operand} {loc : Location}

theorem Division.run_machine (d : Division) (hzero : m ≠ 0) (hone : m ≠ -1) (v : Value) :
    d.machine.run v (.integer m) = .integer (d.run v.toInteger m) := by
  cases d with
  | quotient =>
    simp [machine, run, BinaryOp.run, Value.toInteger, Number.quotient_eq, Number.machineDiv?,
      Number.machineDivides_of_ne, hzero, hone]
  | remainder =>
    simp [machine, run, BinaryOp.run, Value.toInteger, Number.remainder_eq, Number.machineRem?,
      Number.machineDivides_of_ne, hzero, hone]

theorem divideLiteral_eq (d : Division) (hzero : m ≠ 0) (hone : m ≠ -1) :
    divideLiteral d l m loc = (do binary d.machine l (← constant (.integer m))) := by
  unfold divideLiteral
  rw [if_neg hzero, if_neg hone]
  cases d <;> rfl

theorem toInteger_yields (ha : arg.integer? s held = some a) (hn : arg.Below n) :
    Yields (toInteger arg loc) n s held fun d top s' held' => d < top ∧ s' = s ∧ (held' d).toInteger = a := by
  have hnew (v : Value) (hv : v.toInteger = a) : n < n + 1 ∧ s = s ∧ (Function.update held n v n).toInteger = a :=
    ⟨Nat.lt_succ_self n, rfl, by rw [Function.update_self, hv]⟩
  cases arg with
  | blockdef => cases ha
  | literal | nothing =>
    cases ha
    exact .constant _ (hnew _ rfl)
  | reg ty r =>
    cases ha
    cases ty with
    | integer => exact .pure ⟨hn _ _ rfl, rfl, rfl⟩
    | float | bool | color => exact .unary _ r (hnew _ rfl)
    | string => exact .call .stringToInteger [r] (hnew _ rfl)
    | any => exact .call .integerFromAny [r] (hnew _ rfl)
    | list => exact .constant _ (hnew _ rfl)

theorem divideLiteral_yields (d : Division) (hl : l < n) (ha : (held l).toInteger = a) (hm : m ≠ 0) :
    Yields (divideLiteral d l m loc) n s held fun r _ s' held' => s' = s ∧ held' r = .integer (d.run a m) := by
  by_cases hone : m = -1
  · subst hone
    cases d with
    | quotient => exact .unary _ l ⟨rfl, by rw [Function.update_self, UnaryOp.run, ha]; rfl⟩
    | remainder => exact .constant _ ⟨rfl, Function.update_self ..⟩
  · rw [divideLiteral_eq d hm hone]
    refine .bind (.constant _ (.binary _ l n ⟨rfl, ?_⟩))
    rw [Function.update_self, Function.update_self, Function.update_of_ne (Nat.ne_of_lt hl), d.run_machine hm hone, ha]

theorem divide_yields (d : Division) (hl : l < n) (ha : (held l).toInteger = a) (hm : right.integer? s held = some m)
    (hn : right.Below n) (hzero : ∀ t, right = .literal t → m ≠ 0) :
    Yields (divide d l right loc) n s held fun r _ s' held' => s' = s ∧ held' r = .integer (d.run a m) := by
  unfold divide
  split
  next t =>
    cases hm
    exact divideLiteral_yields d hl ha (hzero t rfl)
  next =>
    refine .bind ((toInteger_yields hm hn).imp fun r top s' held' _ hkept h => ?_)
    obtain ⟨-, rfl, hr⟩ := h
    cases d <;> exact .binary _ l r ⟨rfl, by rw [Function.update_self, BinaryOp.run, hkept l hl, ha, hr]; rfl⟩

theorem operation_eq (d : Division) (hleft : left.isFloat = false) : operation d.block [left, right] loc = (do
    let l ← toInteger left loc
    return .reg .integer (← divide d l right loc)) := by
  cases d <;> (
    simp only [operation, Division.block, quotient, remainder, byLeftOperand, List.getD_cons_zero, List.getD_cons_succ]
    split
    · cases hleft
    · rfl)

theorem operation_yields (d : Division) (hleft : left.isFloat = false) (hl : left.Below n) (hr : right.Below n)
    (ha : left.integer? s held = some a) (hm : right.integer? s held = some m)
    (hzero : ∀ t, right = .literal t → m ≠ 0) :
    Yields (operation d.block [left, right] loc) n s held fun o _ s' held' =>
      s' = s ∧ ∃ r, o = .reg .integer r ∧ held' r = .integer (d.run a m) := by
  rw [operation_eq d hleft]
  refine .bind ((toInteger_yields ha hl).imp fun l top s' held' htop hkept h => ?_)
  obtain ⟨hlow, rfl, hl⟩ := h
  have hm' : right.integer? s' held' = some m := by
    cases right with
    | reg ty r => rwa [Operand.integer?, hkept r (hr ty r rfl)]
    | _ => exact hm
  have hr' : right.Below top := fun ty r h => Nat.lt_of_lt_of_le (hr ty r h) htop
  exact .bind ((divide_yields d hlow hl hm' hr' hzero).imp fun r _ _ _ _ _ h => .pure ⟨h.1, r, rfl, h.2⟩)

theorem divideLiteral_guarded (d : Division) (h : divideLiteral d l m loc env st = .ok r st') :
    ∃ code, st'.code.toList = st.code.toList ++ code ∧ ∀ d' op l' r', .binary d' op l' r' ∈ code →
      ∃ k, [.constant r' (.integer k), .binary d' op l' r'] = code ∧ ∀ a, Number.machineDivides a k = true := by
  by_cases hzero : m = 0
  · subst hzero
    cases h
  by_cases hone : m = -1
  · subst hone
    cases d <;> (cases h; exact ⟨[_], Array.toList_push, by simp⟩)
  · rw [divideLiteral_eq d hzero hone] at h
    cases h
    refine ⟨[.constant st.nextReg (.integer m), .binary (st.nextReg + 1) d.machine l st.nextReg], by simp, ?_⟩
    intro d' op l' r' hmem
    obtain ⟨rfl, rfl, rfl, rfl⟩ : d' = st.nextReg + 1 ∧ op = d.machine ∧ l' = l ∧ r' = st.nextReg := by
      simpa using hmem
    exact ⟨m, rfl, fun a => Number.machineDivides_of_ne a hzero hone⟩

/-- Integer division rounds towards zero, by a divisor that is computed and by one that is written in the program, and
the machine never divides where it cannot. A written zero is refused, unless it divides a float. -/
theorem divisions_agree (d : Division) (left right : Operand) (loc : Location) :
    (∀ a m, Number.Truncated a m (Number.quotient a m) (Number.remainder a m) ∧
      (m ≠ 0 → Number.machineDivides a (Number.safeDivisor m) = true)) ∧
    (∀ n s held a m, left.isFloat = false → left.Below n → right.Below n → left.integer? s held = some a →
      right.integer? s held = some m → (∀ t, right = .literal t → m ≠ 0) →
      Yields (operation d.block [left, right] loc) n s held fun o _ s' held' =>
        s' = s ∧ ∃ r, o = .reg .integer r ∧ held' r = .integer (d.run a m)) ∧
    (∀ l m env st r st', divideLiteral d l m loc env st = .ok r st' → ∃ code, st'.code.toList = st.code.toList ++ code ∧
      ∀ d' op l' r', .binary d' op l' r' ∈ code →
        ∃ k, [.constant r' (.integer k), .binary d' op l' r'] = code ∧ ∀ a, Number.machineDivides a k = true) ∧
    ∀ t env st, right = .literal t → Text.leadingInt (Text.ofString t) = 0 →
      (left.isFloat = false → (∀ id, left ≠ .blockdef id) → ∃ e st',
        operation d.block [left, right] loc env st = .error e st' ∧ e.message = "Division by zero") ∧
      (left.isFloat = true → ∃ o st', operation d.block [left, right] loc env st = .ok o st') := by
  refine ⟨fun a m => ⟨Number.truncated a m, Number.machineDivides_safe a⟩, ?_, ?_, ?_⟩
  · exact fun n s held a m hleft hl hr ha hm hzero => operation_yields d hleft hl hr ha hm hzero
  · exact fun l m env st r st' h => divideLiteral_guarded d h
  · rintro t env st rfl hzero
    refine ⟨fun hleft hcasts => ?_, fun hleft => ?_⟩
    · rw [operation_eq d hleft]
      simp only [divide, divideLiteral, hzero, if_true]
      cases left with
      | blockdef id => exact absurd rfl (hcasts id)
      | literal | nothing => exact ⟨_, _, rfl, rfl⟩
      | reg ty => cases ty <;> exact ⟨_, _, rfl, rfl⟩
    · unfold Operand.isFloat at hleft
      split at hleft
      · cases d <;> exact ⟨_, _, rfl⟩
      · cases hleft

/-- The least integer over a written minus one is the least integer again, with nothing left over. -/
theorem divisions_agree_least : Number.Truncated Int64.minValue (-1) Int64.minValue 0 ∧
    Yields (operation .div [.reg .integer 0, .literal "-1"] ⟨0, [1]⟩) 1 { memory := .new 100 10000 }
      (fun _ => .integer Int64.minValue) fun o _ _ held' =>
        ∃ r, o = .reg .integer r ∧ held' r = .integer Int64.minValue := by
  obtain ⟨hnumbers, hyields, -⟩ := divisions_agree .quotient (.reg .integer 0) (.literal "-1") ⟨0, [1]⟩
  refine ⟨(hnumbers Int64.minValue (-1)).1, (hyields 1 _ _ Int64.minValue (-1) rfl ?_ (fun _ _ h => by cases h) rfl ?_ ?_).imp ?_⟩
  · rintro ty r ⟨⟩
    exact Nat.one_pos
  · decide +kernel
  · exact fun _ _ => by decide
  · exact fun _ _ _ _ _ _ h => h.2

end Lower

end Blockwork
