import Blockwork.Machine.Code

/-! # The rooting discipline of code
A judgement on instructions, made without looking at how they were lowered. -/

namespace Blockwork

def Value.refs : Value → List Pointer
  | string p => [p]
  | list p => [p]
  | any p => [p]
  | element b => b.pointers
  | _ => []

/-- Whether an entry point leaves root frames, marks, named roots and temporaries to the program:
it may only add the chunks it allocates. -/
def Entry.ordinary : Entry → Bool
  | rootBegin => false
  | rootEnd => false
  | rootSave => false
  | rootRestore => false
  | flush => false
  | addRoot => false
  | addTempRoot => false
  | _ => true

/-- Whether the result of an entry point depends on more than the program and its input. -/
def Entry.isChance : Entry → Bool
  | random => true
  | unixTime => true
  | _ => false

namespace Flow

/-! ### Facts -/

inductive Word where
  | plain
  | heap
  /-- A list element whose pointer roots keep alive. -/
  | element
  | place (pl : Place)
  deriving DecidableEq

def wordOf (ty : ValueType) : Word :=
  if ty.isHeap then .heap else .plain

def resultWord (e : Entry) : Word :=
  if e.signature.result = some .pointer then .heap else .plain

structure Rules where
  main : Bool
  params : Nat
  arity : Nat → Option Nat
  /-- A store makes what was loaded before it unknown. -/
  strict : Bool
  /-- Only the main function stores into cells. -/
  isSealed : Bool
  /-- Chance and time are not asked for. -/
  steady : Bool
  /-- Every loop counts its rounds. -/
  counted : Bool

structure Room where
  framed : Bool
  registers : Nat
  slots : Nat
  cells : List Bool

inductive Level where
  /-- Outside of all bodies but the outermost root frame. -/
  | top
  | inner
  deriving DecidableEq

/-- What is known while a function runs. -/
structure Facts where
  regs : Reg → Option Word
  /-- For each variable that may be used, whether it holds pointers; then it is a named root. -/
  places : Place → Option Bool
  /-- Variable that holds a pointer and is not registered yet. -/
  fresh : Option Place
  level : Level

namespace Facts

variable (f : Facts)

def Knows (c : Rules) (r : Reg) (w : Word) : Prop :=
  (r < c.params ∧ w = .heap) ∨ f.regs r = some w

def put (r : Reg) (w : Word) : Facts :=
  { f with regs := fun x => if x = r then some w else f.regs x }

def settle : Facts :=
  { f with regs := fun r => (f.regs r).filter (· = .plain) }

def stored (c : Rules) : Facts :=
  if c.strict then f.settle else f

def declare (pl : Place) (heap : Bool) : Facts :=
  { f with places := fun x => if x = pl then some heap else f.places x }

def await (pl : Place) : Facts :=
  { f with places := fun x => if x = pl then none else f.places x, fresh := some pl }

def inner : Facts :=
  { f with level := .inner }

def empty : Facts where
  regs := fun _ => none
  places := fun _ => none
  fresh := none
  level := .top

def start (c : Rules) (cells : List Bool) : Facts where
  regs := fun _ => none
  places := fun
    | .global i => if c.main then none else cells[i]?
    | .slot _ => none
  fresh := none
  level := .top

/-- No register but the parameters is known to hold a pointer, and every variable is registered. -/
structure Settled : Prop where
  regs : ∀ r w, f.regs r = some w → w = .plain
  fresh : f.fresh = none

structure Within (f g : Facts) : Prop where
  regs : ∀ r w, f.regs r = some w → g.regs r = some w
  places : ∀ pl heap, f.places pl = some heap → g.places pl = some heap

structure Weaker (f g : Facts) : Prop extends f.Within g where
  fresh : f.fresh = g.fresh
  level : f.level = g.level

/-- Whether a variable may be declared at a place. -/
def MayDeclare (c : Rules) (b : Room) (pl : Place) (heap : Bool) : Prop :=
  match pl with
  | .slot i => i < b.slots
  | .global i => c.main = true ∧ f.level = .top ∧ b.cells[i]? = some heap

end Facts

inductive Stage where
  /-- Nothing is made yet, and what was known still leads to chunks. -/
  | loose (f : Facts)
  | handed (r : Reg)
  /-- The value to return is a string, just made. -/
  | made (r : Reg)
  /-- The result is ready. -/
  | boxed (r : Reg)

def boxesScalar (e : Entry) : Prop :=
  e = .anyFromInteger ∨ e = .anyFromFloat ∨ e = .anyFromBool ∨ e = .anyFromColor

def boxesPointer (e : Entry) : Prop :=
  e = .anyFromString ∨ e = .anyFromList

inductive Exit (c : Rules) (b : Room) : Stage → Instr → Stage → Prop where
  | text {f : Facts} {d : Reg} {t : Bytes} : c.params ≤ d → d < b.registers →
      Exit c b (.loose f) (.constant d (.text t)) (.loose (f.put d .plain))
  | nothing {f : Facts} {d : Reg} : d < b.registers →
      Exit c b (.loose f) (.entry d .anyNothing []) (.boxed d)
  | scalar {f : Facts} {d r : Reg} {e : Entry} : d < b.registers → boxesScalar e →
      f.Knows c r .plain → Exit c b (.loose f) (.entry d e [r]) (.boxed d)
  | hand {f : Facts} {d r : Reg} : d < b.registers → d ≠ r → f.Knows c r .heap →
      Exit c b (.loose f) (.entry d .addTempRoot [r]) (.handed r)
  | literal {f : Facts} {d r : Reg} : d < b.registers → f.Knows c r .plain →
      Exit c b (.loose f) (.entry d .stringFromLiteral [r]) (.made d)
  | boxHanded {d r : Reg} {e : Entry} : d < b.registers → boxesPointer e →
      Exit c b (.handed r) (.entry d e [r]) (.boxed d)
  | boxMade {d r : Reg} : d < b.registers →
      Exit c b (.made r) (.entry d .anyFromString [r]) (.boxed d)

def Stage.result : Stage → Option Reg
  | handed r => some r
  | boxed r => some r
  | _ => none

/-! ### Code -/

inductive Point where
  | body (f : Facts)
  | left (st : Stage)
  | dead

def Point.Falls (e : Point) (f : Facts) : Prop :=
  match e with
  | .body g => f.Within g ∧ g.fresh = none
  | .left _ => False
  | .dead => True

inductive Step (c : Rules) (b : Room) : Facts → Instr → Facts → Prop where
  | constant {f : Facts} {d : Reg} {v : Value} : f.fresh = none → c.params ≤ d → v.refs = [] →
      Step c b f (.constant d v) (f.put d .plain)
  | unary {f : Facts} {d r : Reg} {op : UnaryOp} : f.fresh = none → c.params ≤ d →
      Step c b f (.unary d op r) (f.put d .plain)
  | binary {f : Facts} {d l r : Reg} {op : BinaryOp} : f.fresh = none → c.params ≤ d →
      Step c b f (.binary d op l r) (f.put d .plain)
  | element {f : Facts} {d r : Reg} {w : Word} : f.fresh = none → c.params ≤ d → f.Knows c r w →
      Step c b f (.element d r) (f.put d .element)
  | load {f : Facts} {d : Reg} {ty : ValueType} {pl : Place} : f.fresh = none → c.params ≤ d →
      f.places pl = some ty.isHeap → Step c b f (.load d ty pl) (f.put d (wordOf ty))
  | assign {f : Facts} {r : Reg} {ty : ValueType} {pl : Place} : f.fresh = none →
      f.Knows c r (wordOf ty) → f.places pl = some ty.isHeap →
      (c.isSealed = true → c.main = false → ∀ i, pl ≠ .global i) →
      Step c b f (.store pl r) (f.stored c)
  | declarePlain {f : Facts} {r : Reg} {pl : Place} : f.fresh = none → f.Knows c r .plain →
      f.MayDeclare c b pl false → Step c b f (.store pl r) ((f.stored c).declare pl false)
  | declareHeap {f : Facts} {r : Reg} {pl : Place} : f.fresh = none → f.Knows c r .heap →
      b.framed = true → f.MayDeclare c b pl true → Step c b f (.store pl r) ((f.stored c).await pl)
  | address {f : Facts} {d : Reg} {pl : Place} : f.fresh = some pl → c.params ≤ d →
      d < b.registers → Step c b f (.address d pl) (f.put d (.place pl))
  | register {f : Facts} {d r : Reg} {pl : Place} : f.fresh = some pl → c.params ≤ d →
      f.regs r = some (.place pl) → b.framed = true →
      Step c b f (.entry d .addRoot [r]) { (f.put d .plain).declare pl true with fresh := none }
  | entry {f : Facts} {d : Reg} {e : Entry} {args : List Reg} : f.fresh = none → c.params ≤ d →
      e.ordinary = true → (e.allocates = true → b.framed = true) →
      (c.steady = true → e.isChance = false) → (∀ r ∈ args, ∃ w, f.Knows c r w) →
      Step c b f (.entry d e args) (f.put d (resultWord e))
  | flush {f : Facts} {d : Reg} : f.fresh = none → c.params ≤ d → b.framed = true →
      Step c b f (.entry d .flush []) (f.settle.put d .plain)
  | poll : f.fresh = none → Step c b f .poll f

inductive Polled : List Instr → Prop where
  | plain {is : List Instr} : Polled (is ++ [.poll])
  | rooted {is : List Instr} : Polled [.rooted (is ++ [.poll])]
  | flushed {is : List Instr} {d : Reg} : Polled is → Polled (is ++ [.entry d .flush []])

inductive Flows (c : Rules) : Room → Point → List Instr → Point → Prop where
  | nil : Flows c b pt [] pt
  | dead : Flows c b .dead is .dead
  | weaken {b : Room} {f g : Facts} {is : List Instr} {pt : Point} : g.Weaker f →
      Flows c b (.body g) is pt → Flows c b (.body f) is pt
  | step {b : Room} {f g : Facts} {i : Instr} {is : List Instr} {pt : Point} : Step c b f i g →
      Flows c b (.body g) is pt → Flows c b (.body f) (i :: is) pt
  /-- The callee may have left because the program has to stop. -/
  | call {b : Room} {f : Facts} {d : Reg} {fn : Nat} {args : List Reg} {is : List Instr} {pt : Point} :
      f.fresh = none → c.params ≤ d → b.framed = true → c.arity fn = some args.length →
      (∀ r ∈ args, f.Knows c r .heap) → Flows c b (.body (f.put d .heap)) is pt →
      Flows c b (.body f) (.call d fn args :: .poll :: is) pt
  | rooted {b : Room} {f : Facts} {body is : List Instr} {e pt : Point} : f.Settled →
      Flows c { b with framed := true } (.body f.inner) body e → e.Falls f →
      Flows c b (.body f) is pt → Flows c b (.body f) (.rooted body :: is) pt
  | ifThen {b : Room} {f : Facts} {r : Reg} {body is : List Instr} {e pt : Point} : f.Settled →
      Flows c b (.body f.inner) body e → e.Falls f → Flows c b (.body f) is pt →
      Flows c b (.body f) (.ifThen r body :: is) pt
  | countLoop {b : Room} {f : Facts} {r : Reg} {body is : List Instr} {e pt : Point} : f.Settled →
      Polled body → Flows c b (.body f.inner) body e → e.Falls f → Flows c b (.body f) is pt →
      Flows c b (.body f) (.countLoop r body :: is) pt
  | foreverLoop {b : Room} {f : Facts} {body is : List Instr} {e pt : Point} : c.counted = false →
      f.Settled → Polled body → Flows c b (.body f.inner) body e → e.Falls f → Flows c b (.body f) is pt →
      Flows c b (.body f) (.foreverLoop body :: is) pt
  | whileLoop {b : Room} {f g : Facts} {r : Reg} {test body is : List Instr} {e pt : Point} :
      c.counted = false → Polled body → f.Settled → g.Settled → f.Within g → f.level = g.level → Flows c b (.body f) test (.body g) →
      Flows c b (.body g.inner) body e → e.Falls f → Flows c b (.body g) is pt →
      Flows c b (.body f) (.whileLoop test r body :: is) pt
  /-- A test that never ends. -/
  | whileDead : c.counted = false → Polled body → f.Settled → Flows c b (.body f) test .dead → Flows c b (.body
      f) (.whileLoop test r body :: is) .dead
  | leave : f.fresh = none → c.params ≤ d → Flows c b (.left (.loose (f.put d .plain))) is pt → Flows c b (.body
      f) (.entry d .rootRestore [] :: is) pt
  | exit : Exit c b st i st' → Flows c b (.left st') is pt → Flows c b (.left st) (i :: is) pt
  | ret {b : Room} {f : Facts} {is : List Instr} : c.main = true →
      Flows c b (.left (.loose f)) (.ret none :: is) .dead
  | retValue {b : Room} {st : Stage} {r : Reg} {is : List Instr} : c.main = false →
      st.result = some r → Flows c b (.left st) (.ret (some r) :: is) .dead

def roomOf (framed : Bool) (cells : List Bool) (code : FunctionCode) : Room :=
  ⟨framed, code.registers, code.slots, cells⟩

def AsksFirst (c : Rules) (body : List Instr) : Prop :=
  c.main = false → body.head? = some .poll

/-- A function keeps the discipline: it saves a mark first, may open its outermost root frame next and
leaves right behind it, and never runs past its end. -/
inductive FunctionOk (c : Rules) (cells : List Bool) (code : FunctionCode) : Prop where
  | framed {d r : Reg} {body tail : List Instr} {e : Point} : c.params ≤ d → c.params ≤ r →
      code.code = .entry d .rootSave [] :: .rooted body :: .entry r .rootRestore [] :: tail →
      AsksFirst c body →
      Flows c (roomOf true cells code) (.body (.start c cells)) body e → e.Falls .empty →
      Flows c (roomOf false cells code) (.left (.loose (Facts.empty.put r .plain))) tail .dead →
      FunctionOk c cells code
  | bare {d : Reg} {rest : List Instr} : c.params ≤ d → code.code = .entry d .rootSave [] :: rest →
      AsksFirst c rest → Flows c (roomOf false cells code) (.body (.start c cells)) rest .dead → FunctionOk c cells code

/-- A program keeps the discipline: every function does under the rules of the program, each with its own
number of parameters. -/
structure ProgramOk (c : Rules) (cells : List Bool) (code : ProgramCode) : Prop where
  size : cells.length = code.cells
  main : FunctionOk { c with main := true, params := 0 } cells code.main
  functions : ∀ i n, c.arity i = some n → ∃ fn, code.functions[i]? = some fn ∧
    FunctionOk { c with main := false, params := n } cells fn

/-! ### Composition -/

section Composition

variable {c : Rules} {b b' : Room} {pt : Point} {is : List Instr}

theorem Flows.of_dead (h : Flows c b .dead is pt) : pt = .dead := by
  cases h with
  | nil | dead => rfl

theorem Flows.append (h : Flows c b pt is mid) (hn : Flows c b mid js pt') : Flows c b pt (is ++ js) pt' := by
  induction h with
  | nil => exact hn
  | dead =>
    cases hn.of_dead
    exact .dead
  | weaken hw _ ih => exact .weaken hw (ih hn)
  | step hs _ ih => exact .step hs (ih hn)
  | call hf hd hq ha hr _ ih => exact .call hf hd hq ha hr (ih hn)
  | rooted hf hb he _ _ ih => exact .rooted hf hb he (ih hn)
  | ifThen hf hb he _ _ ih => exact .ifThen hf hb he (ih hn)
  | countLoop hf hp hb he _ _ ih => exact .countLoop hf hp hb he (ih hn)
  | foreverLoop hc hf hp hb he _ _ ih => exact .foreverLoop hc hf hp hb he (ih hn)
  | whileLoop hc hp hf hg hw hl ht hb he _ _ _ ih => exact .whileLoop hc hp hf hg hw hl ht hb he (ih hn)
  | whileDead hc hp hf ht =>
    cases hn.of_dead
    exact .whileDead hc hp hf ht
  | leave hf hd _ ih => exact .leave hf hd (ih hn)
  | exit he _ ih => exact .exit he (ih hn)
  | ret hm =>
    cases hn.of_dead
    exact .ret hm
  | retValue hm hr =>
    cases hn.of_dead
    exact .retValue hm hr

structure Room.Le (b b' : Room) : Prop where
  framed : b.framed = true → b'.framed = true
  registers : b.registers ≤ b'.registers
  slots : b.slots ≤ b'.slots
  cells : b.cells <+: b'.cells

theorem Room.Le.frame (h : b.Le b') : Room.Le { b with framed := true } { b' with framed := true } :=
  ⟨id, h.registers, h.slots, h.cells⟩

theorem Facts.MayDeclare.mono {f : Facts} (hb : b.Le b') (h : f.MayDeclare c b pl heap) :
    f.MayDeclare c b' pl heap := by
  cases pl with
  | slot => exact Nat.lt_of_lt_of_le h hb.slots
  | global i =>
    obtain ⟨hmain, hlevel, hcell⟩ := h
    obtain ⟨more, hmore⟩ := hb.cells
    have hi : i < b.cells.length := (List.getElem?_eq_some_iff.mp hcell).1
    exact ⟨hmain, hlevel, by rw [← hmore, List.getElem?_append_left hi, hcell]⟩

theorem Step.mono (hb : b.Le b') (h : Step c b f i g) : Step c b' f i g := by
  cases h with
  | declarePlain hf hr hp => exact .declarePlain hf hr (hp.mono hb)
  | declareHeap hf hr hq hp => exact .declareHeap hf hr (hb.framed hq) (hp.mono hb)
  | address hf hd hr => exact .address hf hd (Nat.lt_of_lt_of_le hr hb.registers)
  | register hf hd hr hq => exact .register hf hd hr (hb.framed hq)
  | entry hf hd ho ha hs hr => exact .entry hf hd ho (hb.framed ∘ ha) hs hr
  | flush hf hd hq => exact .flush hf hd (hb.framed hq)
  | _ => constructor <;> assumption

theorem Exit.mono (hb : b.Le b') (h : Exit c b st i st') : Exit c b' st i st' := by
  have hreg : ∀ {d}, d < b.registers → d < b'.registers := fun hd =>
    Nat.lt_of_lt_of_le hd hb.registers
  cases h with
  | text hp hd => exact .text hp (hreg hd)
  | nothing hd => exact .nothing (hreg hd)
  | scalar hd he hr => exact .scalar (hreg hd) he hr
  | hand hd hne hr => exact .hand (hreg hd) hne hr
  | literal hd hr => exact .literal (hreg hd) hr
  | boxHanded hd he => exact .boxHanded (hreg hd) he
  | boxMade hd => exact .boxMade (hreg hd)

theorem Flows.mono (h : Flows c b pt is pt') : ∀ {b'}, b.Le b' → Flows c b' pt is pt' := by
  induction h with
  | nil => exact fun _ => .nil
  | dead => exact fun _ => .dead
  | weaken hw _ ih => exact fun hb => .weaken hw (ih hb)
  | step hs _ ih => exact fun hb => .step (hs.mono hb) (ih hb)
  | call hf hd hq ha hr _ ih => exact fun hb => .call hf hd (hb.framed hq) ha hr (ih hb)
  | rooted hf _ he _ ihb ih => exact fun hb => .rooted hf (ihb hb.frame) he (ih hb)
  | ifThen hf _ he _ ihb ih => exact fun hb => .ifThen hf (ihb hb) he (ih hb)
  | countLoop hf hp _ he _ ihb ih => exact fun hb => .countLoop hf hp (ihb hb) he (ih hb)
  | foreverLoop hc hf hp _ he _ ihb ih => exact fun hb => .foreverLoop hc hf hp (ihb hb) he (ih hb)
  | whileLoop hc hp hf hg hw hl _ _ he _ iht ihb ih =>
    exact fun hb => .whileLoop hc hp hf hg hw hl (iht hb) (ihb hb) he (ih hb)
  | whileDead hc hp hf _ iht => exact fun hb => .whileDead hc hp hf (iht hb)
  | leave hf hd _ ih => exact fun hb => .leave hf hd (ih hb)
  | exit he _ ih => exact fun hb => .exit (he.mono hb) (ih hb)
  | ret hm => exact fun _ => .ret hm
  | retValue hm hr => exact fun _ => .retValue hm hr

end Composition

/-! ### Levels -/

section Levels

variable {c : Rules} {b : Room}

theorem Facts.Settled.inner {f : Facts} (h : f.Settled) : f.inner.Settled :=
  ⟨h.regs, h.fresh⟩

def Facts.outer (f : Facts) : Facts :=
  { f with level := .top }

theorem Facts.Settled.outer {f : Facts} (h : f.Settled) : f.outer.Settled :=
  ⟨h.regs, h.fresh⟩

theorem Facts.Within.outer {f : Facts} (h : f.Within g) : f.outer.Within g.outer :=
  ⟨h.regs, h.places⟩

theorem Point.Falls.outer {e : Point} (h : e.Falls f) : e.Falls f.outer := by
  cases e with
  | body => exact ⟨⟨h.1.regs, h.1.places⟩, h.2⟩
  | left | dead => exact h

theorem Facts.outer_stored (f : Facts) : (f.stored c).outer = f.outer.stored c := by
  cases hs : c.strict <;> simp [Facts.stored, hs, Facts.outer, Facts.settle]

def Stage.outer : Stage → Stage
  | loose f => loose f.outer
  | st => st

def Point.outer : Point → Point
  | body f => body f.outer
  | left st => left st.outer
  | dead => dead

theorem Facts.MayDeclare.outer {f : Facts} (h : f.MayDeclare c b pl heap) : f.outer.MayDeclare c b pl heap := by
  cases pl with
  | slot => exact h
  | global =>
    obtain ⟨hmain, -, hcell⟩ := h
    exact ⟨hmain, rfl, hcell⟩

theorem Step.outer (h : Step c b f i g) : Step c b f.outer i g.outer := by
  cases h with
  | assign hf hr hp hs =>
    rw [Facts.outer_stored]
    exact .assign hf hr hp hs
  | @declarePlain r pl hf hr hp =>
    have hstep : Step c b f.outer (.store pl r) ((f.outer.stored c).declare pl false) := .declarePlain hf hr hp.outer
    rw [← Facts.outer_stored] at hstep
    exact hstep
  | @declareHeap r pl hf hr hq hp =>
    have hstep : Step c b f.outer (.store pl r) ((f.outer.stored c).await pl) := .declareHeap hf hr hq hp.outer
    rw [← Facts.outer_stored] at hstep
    exact hstep
  | flush hf hd hq => exact .flush hf hd hq
  | _ => constructor <;> assumption

theorem Exit.outer (h : Exit c b st i st') : Exit c b st.outer i st'.outer := by
  cases h <;> constructor <;> assumption

theorem Flows.outer (h : Flows c b pt is pt') : Flows c b pt.outer is pt'.outer := by
  induction h with
  | nil => exact .nil
  | dead => exact .dead
  | @weaken b f g is pt hw _ ih =>
    exact .weaken ⟨hw.toWithin.outer, hw.fresh, rfl⟩ ih
  | step hs _ ih => exact .step hs.outer ih
  | call hf hd hq ha hr _ ih => exact .call hf hd hq ha hr ih
  | rooted hf hb he _ _ ih => exact .rooted hf.outer hb he.outer ih
  | ifThen hf hb he _ _ ih => exact .ifThen hf.outer hb he.outer ih
  | countLoop hf hp hb he _ _ ih => exact .countLoop hf.outer hp hb he.outer ih
  | foreverLoop hc hf hp hb he _ _ ih => exact .foreverLoop hc hf.outer hp hb he.outer ih
  | whileLoop hc hp hf hg hw hl _ hb he _ iht _ ih =>
    exact .whileLoop hc hp hf.outer hg.outer hw.outer rfl iht hb he.outer ih
  | whileDead hc hp hf _ iht => exact .whileDead hc hp hf.outer iht
  | leave hf hd _ ih => exact .leave hf hd ih
  | exit he _ ih => exact .exit he.outer ih
  | ret hm => exact .ret hm
  | @retValue b st r is hm hr =>
    refine .retValue hm ?_
    cases st <;> exact hr

end Levels

end Flow

end Blockwork
