import Blockwork.Proofs.Alike
import Mathlib.Logic.Function.Basic

/-! # What a lowered expression comes to
The code of an expression runs straight through. -/

namespace Blockwork

open Machine

/-- Wherever the code stands in a function with at least `top` registers, it runs through from `s` and registers that
hold `held` to `s'` and registers that hold `held'`. -/
def Instr.Passes (code : List Instr) (top : Reg) (s : Session) (held : Reg → Value) (s' : Session)
    (held' : Reg → Value) : Prop :=
  ∀ (p : ProgramCode) (waiting : List Activation) (rest : List Instr) (konts : List Kont) (regs : Array Value)
    (base : Nat) (dst : Reg), top ≤ regs.size → (∀ r, regs.getD r .zero = held r) → ∃ regs' : Array Value,
      advance p .idle ⟨s, ⟨code ++ rest, konts, regs, base, dst⟩, waiting⟩ code.length =
        .running ⟨s', ⟨rest, konts, regs', base, dst⟩, waiting⟩ ∧
      regs'.size = regs.size ∧ ∀ r, regs'.getD r .zero = held' r

section Rules

variable {s s' : Session} {held held' held'' : Reg → Value} {n top : Reg}

namespace Instr.Passes

theorem nil : Passes [] top s held s held := by
  intro p waiting rest konts regs base dst _ hget
  exact ⟨regs, rfl, rfl, hget⟩

theorem append (h : Passes code top s held s' held') (h' : Passes code' top' s' held' s'' held'') (htop : top ≤ top') :
    Passes (code ++ code') top' s held s'' held'' := by
  intro p waiting rest konts regs base dst hsize hget
  obtain ⟨mid, hmid, hmidSize, hmidGet⟩ :=
    h p waiting (code' ++ rest) konts regs base dst (Nat.le_trans htop hsize) hget
  obtain ⟨last, hlast, hlastSize, hlastGet⟩ := h' p waiting rest konts mid base dst (hmidSize ▸ hsize) hmidGet
  refine ⟨last, ?_, hlastSize.trans hmidSize, hlastGet⟩
  rw [List.append_assoc, List.length_append, advance_idle_add hmid]
  exact hlast

theorem write (h : ∀ p waiting (a : Activation), (∀ r, a.get r = held r) → execute p s waiting a i = goOn s' waiting (a.set d v)) :
    Passes [i] (d + 1) s held s' (Function.update held d v) := by
  intro p waiting rest konts regs base dst hsize hget
  refine ⟨regs.setIfInBounds d v, h p waiting ⟨rest, konts, regs, base, dst⟩ hget, Array.size_setIfInBounds, ?_⟩
  intro r
  by_cases hr : r = d
  · simp [hr, Array.getD_eq_getD_getElem?, Nat.lt_of_succ_le hsize]
  · have hne : ¬ d = r := fun he => hr he.symm
    simp [hr, hne, Array.getD_eq_getD_getElem?, ← hget]

end Instr.Passes

namespace Lower

/-- Lowered with the registers below `n` in use, a step gives a result, and its code leads from `s` and the registers
`held`, of which it changes none below `n`, to what `Q` says. -/
def Yields {α : Type} (x : Lower α) (n : Reg) (s : Session) (held : Reg → Value)
    (Q : α → Reg → Session → (Reg → Value) → Prop) : Prop :=
  ∀ (env : LowerEnv) (l : LowerState), l.nextReg = n → ∃ a l' code s' held',
    x env l = .ok a l' ∧ l'.code.toList = l.code.toList ++ code ∧ n ≤ l'.nextReg ∧ (∀ r < n, held' r = held r) ∧
      Instr.Passes code l'.nextReg s held s' held' ∧ Q a l'.nextReg s' held'

namespace Yields

variable {α β : Type} {Q Q' : α → Reg → Session → (Reg → Value) → Prop}

theorem pure (h : Q a n s held) : Yields (pure a) n s held Q := by
  intro env l hl
  exact ⟨a, l, [], s, held, rfl, (List.append_nil _).symm, Nat.le_of_eq hl.symm, fun _ _ => rfl, .nil, hl ▸ h⟩

theorem bind {f : β → Lower α}
    (h : Yields x n s held fun b n s held => Yields (f b) n s held Q) : Yields (x >>= f) n s held Q := by
  intro env l hl
  obtain ⟨a, l₁, code, s₁, held₁, hx, hcode, hn, hkept, hpass, hf⟩ := h env l hl
  obtain ⟨b, l₂, code', s₂, held₂, hfa, hcode', hn', hkept', hpass', hQ⟩ := hf env l₁ rfl
  refine ⟨b, l₂, code ++ code', s₂, held₂, ?_, ?_, Nat.le_trans hn hn', ?_, hpass.append hpass' hn', hQ⟩
  · simp only [Bind.bind, ReaderT.bind, EStateM.bind, hx, hfa]
  · rw [hcode', hcode, List.append_assoc]
  · intro r hr
    rw [hkept' r (Nat.lt_of_lt_of_le hr hn), hkept r hr]

theorem imp (h : Yields x n s held Q)
    (hQ : ∀ a n' s' held', n ≤ n' → (∀ r < n, held' r = held r) → Q a n' s' held' → Q' a n' s' held') :
    Yields x n s held Q' := by
  intro env l hl
  obtain ⟨a, l', code, s', held', hx, hcode, hn, hkept, hpass, hres⟩ := h env l hl
  exact ⟨a, l', code, s', held', hx, hcode, hn, hkept, hpass, hQ a _ s' held' hn hkept hres⟩

variable {Q : Reg → Reg → Session → (Reg → Value) → Prop}

theorem one (i : Reg → Instr) (hx : ∀ env l, ∃ sc, x env l = .ok l.nextReg ⟨sc, l.code.push (i l.nextReg), l.nextReg + 1, l.globals, l.cells⟩)
    (hi : ∀ p waiting (a : Activation), (∀ r, a.get r = held r) →
      execute p s waiting a (i n) = goOn s' waiting (a.set n v)) (h : Q n (n + 1) s' (Function.update held n v)) :
    Yields x n s held Q := by
  intro env l hl
  obtain ⟨sc, hx⟩ := hx env l
  subst hl
  refine ⟨_, _, [i l.nextReg], s', _, hx, by simp, Nat.le_succ _, ?_, .write hi, h⟩
  intro r hr
  exact Function.update_of_ne (Nat.ne_of_lt hr) _ _

theorem constant (v : Value) (h : Q n (n + 1) s (Function.update held n v)) : Yields (constant v) n s held Q :=
  one (.constant · v) (fun _ l => ⟨l.scopes, rfl⟩) (fun _ _ _ _ => rfl) h

theorem unary (op : UnaryOp) (r : Reg) (h : Q n (n + 1) s (Function.update held n (op.run (held r)))) :
    Yields (unary op r) n s held Q :=
  one (.unary · op r) (fun _ l => ⟨l.scopes, rfl⟩) (fun _ _ a ha => by rw [← ha]; rfl) h

theorem binary (op : BinaryOp) (r r' : Reg) (h : Q n (n + 1) s (Function.update held n (op.run (held r) (held r')))) :
    Yields (binary op r r') n s held Q :=
  one (.binary · op r r') (fun _ l => ⟨l.scopes, rfl⟩) (fun _ _ a ha => by rw [← ha, ← ha]; rfl) h

theorem call (e : Entry) (args : List Reg)
    (h : Q n (n + 1) (e.run (args.map held) s).2 (Function.update held n (e.run (args.map held) s).1)) :
    Yields (call e args) n s held Q := by
  refine one (.entry · e args) (fun env l => ?_) (fun p waiting a ha => ?_) h
  · by_cases he : e.allocates = true
    · exact ⟨l.scopes.markDirty, by simp only [Lower.call, he, if_true]; rfl⟩
    · exact ⟨l.scopes, by simp only [Lower.call, he]; rfl⟩
  · rw [← funext ha]
    rfl

end Yields

end Lower

end Rules

/-- A value with a string in place of the pointer to it. -/
def Session.reading (s : Session) : Value → Value
  | .string p => .text (s.bytes p)
  | v => v

/-- What an operand stands for, with a text in place of a string. -/
def Operand.reading (s : Session) (held : Reg → Value) : Operand → Option Value
  | .literal t => some (.text (Text.ofString t))
  | .reg _ r => some (s.reading (held r))
  | _ => none

/-- An expression comes to a value, unless a fatal condition is pending in the end. -/
def Lower.Means (x : Lower Operand) (n : Reg) (s : Session) (held : Reg → Value) (v : Value) : Prop :=
  Yields x n s held fun o _ s' held' => s'.abort.isSome = true ∨ o.reading s' held' = some v

namespace Lower

variable {s : Session} {held : Reg → Value} {n : Reg} {v w : Value}

def Comes (w : Value) (d _n : Reg) (s : Session) (held : Reg → Value) : Prop :=
  s.abort.isSome = true ∨ held d = w

theorem Comes.written (h : v = w) : Comes w n top s (Function.update held n v) := by
  refine Or.inr ?_
  rw [Function.update_self, h]

theorem means_reg (hw : ∀ s : Session, s.reading w = w) (hx : Yields x n s held (Comes w)) :
    Means (do return .reg ty (← x)) n s held w := by
  refine .bind (hx.imp fun d _ s' held' _ _ h => .pure (h.imp_right fun hd => ?_))
  rw [Operand.reading, hd, hw]

end Lower

namespace Session

variable {s s' : Session}

theorem allocOr_keeps (hm : s.memory.Sound) (hcontent : ∀ q, s.memory.heap.Refers content q → s.memory.Safe q)
    (hlist : ∀ l, content = .list l → l.items = .null) (h : s.allocOr size content fallback = (q, s')) :
    Memory.After s.memory s'.memory ∧ (∀ p, s.memory.Safe p → s'.memory.heap.payload? p = s.memory.heap.payload? p) ∧
      (s'.abort.isSome = true ∨ q ∈ s'.memory.roots.temps ∧ s'.memory.heap.payload? q = some content) := by
  obtain ⟨hafter, htemp⟩ : Memory.After s.memory (s.alloc size content).2.memory ∧ _ := after_alloc hm hcontent hlist
  obtain ⟨m, hroom, hok | ⟨e, herr⟩⟩ := s.alloc_cases size content
  all_goals have hclear := cleared_room hm hroom
  · rw [hok] at hafter htemp
    simp only [allocOr, hok] at h
    cases h
    refine ⟨hafter, fun p hp => ?_, Or.inr ⟨htemp _ rfl, ?_⟩⟩
    · rw [hclear.sound.payload?_grant (hclear.live hm hp), hclear.kept p hp]
    · simp only [Memory.grant, Heap.payload?_push, if_true]
  · rw [herr] at hafter
    simp only [allocOr, herr] at h
    cases h
    exact ⟨hafter, fun p hp => by rw [fail_memory]; exact hclear.kept p hp, Or.inl (isSome_fail _ _)⟩

end Session

end Blockwork
