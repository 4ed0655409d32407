import Blockwork.Proofs.Rooting.Meaning

/-! # Activations in order
Where a running function stands: before its save, before its outermost frame, in its body with some continuations
and open frames, behind the outermost frame, or behind its restore. -/

namespace Blockwork

def Roots.extend (r : Roots) (new : List Pointer) : Roots :=
  { r with temps := r.temps ++ new.toArray }

/-- Temporaries that were made for a value when it was handed over: none for a static value, the value itself, or
what it boxes and then the box. -/
inductive Session.MadeFor (s : Session) (v : Value) : List Pointer → Prop where
  | none : (v.pointer = .null ∨ ∃ z, v.pointer = .static z) → s.MadeFor v []
  | itself : s.MadeFor v [v.pointer]
  | content : (s.boxed v.pointer = .string q ∨ s.boxed v.pointer = .list q) → s.MadeFor v [q, v.pointer]
  | refused : v = .any (.static .nothing) → s.abort.isSome = true → s.MadeFor v [q]

namespace Flow

open Memory Roots

namespace Site

def low (σ : Site) : Nat :=
  if σ.rules.strict && σ.rules.isSealed then σ.cells.length else 0

def outermostLow (σ : Site) : Nat :=
  if σ.rules.main then 0 else σ.low

theorem low_eq {σ : Site} (h : σ.rules.Careful) : σ.low = σ.cells.length := by
  simp [low, h.1, h.2]

theorem low_le (σ : Site) : σ.low ≤ σ.cells.length := by
  unfold low
  split
  · exact Nat.le_refl _
  · exact Nat.zero_le _

def AtTop (σ : Site) (f : Facts) (fs : List (Nat × Roots)) : Prop :=
  σ.rules.main = true → f.level = .top → ∀ x ∈ fs, x.1 = 0

structure Layered (σ : Site) (fs : List (Nat × Roots)) : Prop where
  le : ∀ x ∈ fs, x.1 ≤ σ.low
  eq : σ.rules.main = false → ∀ x ∈ fs, x.1 = σ.low

end Site

structure WhileOk (c : Rules) (b : Room) (f g : Facts) (test body : List Instr) : Prop where
  counted : c.counted = false
  polled : Polled body
  before : f.Settled
  tested : g.Settled
  within : f.Within g
  level : f.level = g.level
  test : Flows c b (.body f) test (.body g)
  body : ∃ e : Point, Flows c b (.body g.inner) body e ∧ e.Falls f

structure RoundOk (c : Rules) (b : Room) (f : Facts) (body : List Instr) : Prop where
  before : f.Settled
  body : ∃ e : Point, Flows c b (.body f.inner) body e ∧ e.Falls f

/-- Continuations that take over where a body ends, with the frames that are open until then. -/
inductive Stack (σ : Site) : Room → List (Nat × Roots) → List Kont → Point → Prop where
  | done : Stack σ b fs [] .dead
  | next : f.Settled → e.Falls f → σ.AtTop f fs → Flows σ.rules b (.body f) rest pt → Stack σ b fs ks pt → Stack
      σ b fs (.next rest :: ks) e
  | closeRoots : f.Settled → e.Falls f → σ.AtTop f fs → (σ.rules.Careful → σ.Anchored f older) → (b.framed =
      true → fs ≠ []) → Flows σ.rules b (.body f) rest pt → Stack σ b fs ks pt → Stack σ { b with framed := true
      } ((σ.low, older) :: fs) (.closeRoots rest :: ks) e
  | closeOutermost : σ.rules.params ≤ d → e.Falls .empty → Flows σ.rules b (.left (.loose (Facts.empty.put d
      .plain))) tail .dead → Stack σ { b with framed := true } [(bound, older)] [.closeRoots (.entry d
      .rootRestore [] :: tail)] e
  | countLoop {b : Room} {fs : List (Nat × Roots)} {ks : List Kont} {left : Int64} {body rest : List Instr}
      {f : Facts} {e pt : Point} : Polled body → RoundOk σ.rules b f body → e.Falls f → σ.AtTop f fs →
      Flows σ.rules b (.body f) rest pt → Stack σ b fs ks pt →
      Stack σ b fs (.countLoop left body rest :: ks) e
  | whileTest {b : Room} {fs : List (Nat × Roots)} {ks : List Kont} {cond : Reg}
      {test body rest : List Instr} {f g : Facts} {pt : Point} : WhileOk σ.rules b f g test body →
      σ.AtTop f fs → Flows σ.rules b (.body g) rest pt → Stack σ b fs ks pt →
      Stack σ b fs (.whileTest test cond body rest :: ks) (.body g)
  | whileNever {b : Room} {fs : List (Nat × Roots)} {ks : List Kont} {cond : Reg}
      {test body rest : List Instr} : Stack σ b fs (.whileTest test cond body rest :: ks) .dead
  | whileBody {b : Room} {fs : List (Nat × Roots)} {ks : List Kont} {cond : Reg}
      {test body rest : List Instr} {f g : Facts} {e pt : Point} : WhileOk σ.rules b f g test body →
      e.Falls f → σ.AtTop f fs → Flows σ.rules b (.body g) rest pt → Stack σ b fs ks pt →
      Stack σ b fs (.whileBody test cond body rest :: ks) e
  | foreverLoop {b : Room} {fs : List (Nat × Roots)} {ks : List Kont} {body : List Instr} {f : Facts}
      {e : Point} : σ.rules.counted = false → Polled body → RoundOk σ.rules b f body → e.Falls f →
      σ.AtTop f fs → Stack σ b fs (.foreverLoop body :: ks) e

theorem Stack.not_left : ¬ Stack σ b fs ks (.left st) := by
  intro h
  cases h with
  | next _ he _ _ _ | closeRoots _ he _ _ _ _ _ | closeOutermost _ he _ | countLoop _ _ he _ _ _
  | whileBody _ he _ _ _ | foreverLoop _ _ _ he _ => exact he

/-! ### Standing -/

structure Site.Fit (σ : Site) (a : Activation) (b : Room) : Prop where
  base : σ.base = a.base
  registers : b.registers ≤ a.regs.size
  allows : σ.Allows b

/-- What is known of a function in its body: the frames it has open, and what its facts say. -/
structure Site.Before (σ : Site) (b : Room) (fs : List (Nat × Roots)) (f : Facts) (s : Session)
    (a : Activation) : Prop where
  frames : Frames σ.entry fs s.memory.roots
  framed : b.framed = true → fs ≠ []
  top : σ.AtTop f fs
  layered : σ.Layered fs
  fit : σ.Fit a b
  holds : σ.rules.Careful → σ.Holds f s.memory a.get

structure Site.Runs (σ : Site) (b : Room) (fs : List (Nat × Roots)) (f : Facts) (e : Point) (s : Session)
    (a : Activation) : Prop extends σ.Before b fs f s a where
  code : Flows σ.rules b (.body f) a.code e
  stack : Stack σ b fs a.konts e

structure Site.Rests (σ : Site) (m : Memory) : Prop where
  orderly : Orderly σ.cells m
  stands : σ.Stands m

structure Site.Keeps (σ : Site) (s : Session) (get : Reg → Value) : Prop extends σ.Rests s.memory where
  params : σ.Params s.memory get

def Site.Left (σ : Site) (s : Session) (get : Reg → Value) : Stage → Prop
  | .loose _ => s.memory.roots = σ.entry
  | .handed r => s.memory.roots = σ.entry.addTemp (get r).pointer
  | .made r => s.memory.roots = σ.entry ∨ s.memory.roots = σ.entry.extend [(get r).pointer]
  | .boxed r => ∃ new, s.memory.roots = σ.entry.extend new ∧ s.MadeFor (get r) new

def Site.Carries (σ : Site) (m : Memory) (get : Reg → Value) : Stage → Prop
  | .loose f => ∀ x w, f.Knows σ.rules x w →
      (∀ p ∈ (get x).refs, m.heap.Live p) ∧ (w = .plain → (get x).refs = []) ∧ (w = .heap → (get x).Direct)
  | .handed r => (get r).Direct ∧ m.Held m.roots (get r).pointer
  | .made r => (get r).Direct ∧ m.Held m.roots (get r).pointer
  | .boxed r => (get r).Direct ∧ m.Held m.roots (get r).pointer

structure Site.Leaves (σ : Site) (st : Stage) (s : Session) (get : Reg → Value) : Prop where
  left : σ.Left s get st
  rests : σ.rules.Careful → σ.Rests s.memory
  carries : σ.rules.Careful → σ.Carries s.memory get st
  guarded : σ.rules.Careful → σ.rules.main = false → Guarded σ.cells s.memory none

inductive Site.Doing (σ : Site) (a : Activation) (s : Session) : Prop where
  | entering {fn : FunctionCode} : FunctionOk σ.rules σ.cells fn → a.code = fn.code → a.konts = [] →
      s.memory.roots = σ.entry → σ.Fit a (roomOf false σ.cells fn) →
      (σ.rules.Careful → σ.Keeps s a.get ∧ Guarded σ.cells s.memory none) → σ.Doing a s
  | pending {b : Room} {body tail : List Instr} {d : Reg} {e : Point} : σ.rules.params ≤ d →
      a.code = .rooted body :: .entry d .rootRestore [] :: tail → a.konts = [] →
      s.memory.roots = σ.entry.save → σ.Fit a b →
      Flows σ.rules { b with framed := true } (.body (.start σ.rules σ.cells)) body e → e.Falls .empty →
      Flows σ.rules b (.left (.loose (Facts.empty.put d .plain))) tail .dead →
      (σ.rules.Careful → σ.Keeps s a.get ∧ Guarded σ.cells s.memory none) → σ.Doing a s
  | running : σ.Runs b fs f e s a → σ.Doing a s
  | closing {b : Room} {tail : List Instr} {d : Reg} : σ.rules.params ≤ d →
      a.code = .entry d .rootRestore [] :: tail → a.konts = [] → s.memory.roots = σ.entry.save →
      σ.Fit a b → Flows σ.rules b (.left (.loose (Facts.empty.put d .plain))) tail .dead →
      (σ.rules.Careful → σ.Keeps s a.get ∧ (σ.rules.main = false → Guarded σ.cells s.memory none)) →
      σ.Doing a s
  | leaving {b : Room} {fs : List (Nat × Roots)} {st : Stage} {e : Point} :
      Flows σ.rules b (.left st) a.code e → Stack σ b fs a.konts e → σ.Fit a b → σ.Leaves st s a.get →
      σ.Doing a s

/-- A function that waits at a call for the result in a register, with the roots it had at the call. -/
structure Site.Pauses (σ : Site) (a : Activation) (m : Memory) (r : Roots) (d : Reg) (b : Room)
    (fs : List (Nat × Roots)) (f : Facts) (e : Point) : Prop where
  code : ∃ is, a.code = .poll :: is ∧ Flows σ.rules b (.body (f.put d .heap)) is e
  stack : Stack σ b fs a.konts e
  frames : Frames σ.entry fs r
  opened : fs ≠ []
  fresh : f.fresh = none
  writes : σ.rules.params ≤ d
  top : σ.AtTop f fs
  layered : σ.Layered fs
  fit : σ.Fit a b
  lies : σ.rules.Careful → σ.Lies
  params : σ.rules.Careful → σ.Params m a.get
  means : σ.rules.Careful → σ.Means f r m a.get

def Rules.of (c : Rules) (main : Bool) (n : Nat) : Rules :=
  { c with main, params := n }

/-- The functions that wait, with the roots at the entry of each: the one that runs was entered with `r`, has its
slots at `limit`, and is to leave its result in `d`. -/
inductive Waits (c : Rules) (cells : List Bool) (m : Memory) :
    Roots → Nat → Reg → List Activation → List Roots → Prop where
  | main : Waits c cells m {} cells.length d [] []
  | call {σ : Site} {a : Activation} {r : Roots} {limit : Nat} {d : Reg} {b : Room}
      {fs : List (Nat × Roots)} {f : Facts} {e : Point} {ws : List Activation} {es : List Roots} {n : Nat} :
      σ.rules = c.of ws.isEmpty n → σ.cells = cells → (c.Careful → limit = σ.base + σ.slots) →
      σ.Pauses a m r d b fs f e → Waits c cells m σ.entry σ.base a.dst ws es →
      Waits c cells m r limit d (a :: ws) (σ.entry :: es)

/-- A machine in order, with the roots at the entry of each function that runs or waits. -/
inductive InOrder (c : Rules) (cells : List Bool) : List Roots → Machine → Prop where
  | intro {σ : Site} {s : Session} {a : Activation} {ws : List Activation} {es : List Roots} {n : Nat} :
      σ.rules = c.of ws.isEmpty n → σ.cells = cells → σ.Doing a s →
      Waits c cells s.memory σ.entry σ.base a.dst ws es → s.abort ≠ some (.roots .underflow) →
      InOrder c cells (σ.entry :: es) ⟨s, a, ws⟩

end Flow

end Blockwork
