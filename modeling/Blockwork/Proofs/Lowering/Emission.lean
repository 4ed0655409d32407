import Blockwork.Compile.Program
import Blockwork.Proofs.Flow

/-! # What a step of lowering emits
A step that succeeds appends code that keeps the discipline from the point where lowering stood, and keeps
everything known there. -/

namespace Blockwork.Flow

open Lower Scopes Facts

variable {f : Facts} {s : LowerState}

theorem bind_ok {f : α → Lower β} (h : (x >>= f) env s = .ok b s') :
    ∃ a t, x env s = .ok a t ∧ f a env t = .ok b s' := by
  cases hx : x env s with
  | ok a t =>
    refine ⟨a, t, rfl, ?_⟩
    simpa only [bind, ReaderT.bind, EStateM.bind, hx] using h
  | error =>
    simp only [bind, ReaderT.bind, EStateM.bind, hx] at h
    cases h

theorem bind_run {f : α → Lower β} (h : x env s = .ok a t) : (x >>= f) env s = f a env t := by
  simp only [bind, ReaderT.bind, EStateM.bind, h]

theorem pure_ok (h : (pure a : Lower α) env s = .ok b s') : b = a ∧ s' = s := by
  cases h
  exact ⟨rfl, rfl⟩

theorem fail_ok : (Lower.fail cause loc : Lower α) env s ≠ .ok a s' :=
  nofun

/-! ### Knowledge at a point -/

namespace Point

def Knows (c : Rules) (pt : Point) (r : Reg) (w : Word) : Prop :=
  match pt with
  | .body f => f.Knows c r w
  | .left _ => False
  | .dead => True

def KnowsAll (c : Rules) (pt : Point) (known : List (Reg × Word)) : Prop :=
  ∀ x ∈ known, pt.Knows c x.1 x.2

def Has (pt : Point) (pl : Place) (heap : Bool) : Prop :=
  match pt with
  | .body f => f.places pl = some heap
  | .left _ => False
  | .dead => True

def Sub (pt pt' : Point) : Prop :=
  match pt, pt' with
  | _, .dead => True
  | .body f, .body g => f.Within g ∧ f.level = g.level
  | _, _ => False

end Point

theorem Facts.Within.refl (f : Facts) : f.Within f :=
  ⟨fun _ _ h => h, fun _ _ h => h⟩

theorem Facts.Within.trans (hfg : f.Within g) (hgh : g.Within h) : f.Within h :=
  ⟨fun r w hr => hgh.regs r w (hfg.regs r w hr), fun pl b hp => hgh.places pl b (hfg.places pl b hp)⟩

theorem Facts.Within.knows (h : f.Within g) (hr : f.Knows c r w) : g.Knows c r w :=
  hr.imp id (h.regs r w)

section Sub

variable {pt : Point}

theorem Point.Sub.trans (h : pt.Sub pt') (h' : pt'.Sub pt'') : pt.Sub pt'' := by
  cases pt'' with
  | dead => cases pt <;> trivial
  | left => cases pt' <;> exact h'.elim
  | body =>
    cases pt' with
    | dead | left => exact h'.elim
    | body =>
      cases pt with
      | dead | left => exact h.elim
      | body => exact ⟨h.1.trans h'.1, h.2.trans h'.2⟩

theorem Point.Sub.knows (h : pt.Sub pt') (hr : pt.Knows c r w) : pt'.Knows c r w := by
  cases pt' with
  | dead => trivial
  | left => cases pt <;> exact h.elim
  | body =>
    cases pt with
    | dead | left => exact h.elim
    | body => exact h.1.knows hr

theorem Point.Sub.knowsAll (h : pt.Sub pt') (hk : pt.KnowsAll c known) : pt'.KnowsAll c known :=
  fun x hx => h.knows (hk x hx)

theorem Point.Sub.has (h : pt.Sub pt') (hp : pt.Has pl heap) : pt'.Has pl heap := by
  cases pt' with
  | dead => trivial
  | left => cases pt <;> exact h.elim
  | body =>
    cases pt with
    | dead | left => exact h.elim
    | body => exact h.1.places pl heap hp

end Sub

/-! ### States and points that fit -/

/-- A function that is being lowered, with the rules its code is checked against. -/
structure Context where
  rules : Rules
  env : LowerEnv
  cells : List Bool
  main : rules.main = true ↔ env.kind = .main
  unsealed : rules.isSealed = false
  arity : ∀ i d, env.functions[i]? = some d → rules.arity i = some d.params.length
  params : ∀ id, env.kind = .user id → ∀ i d, findFunction? env.functions id = some (i, d) →
    d.params.length ≤ rules.params

theorem Context.user (C : Context) (hkind : C.env.kind = .user name) : C.rules.main = false := by
  cases hmain : C.rules.main with
  | false => rfl
  | true => cases hkind.symm.trans (C.main.mp hmain)

def placeOf? : Storage → Option Place
  | .constant _ => none
  | .slot i => some (.slot i)
  | .global i => some (.global i)

def Visible (pt : Point) (v : Variable) : Prop :=
  ∀ pl, placeOf? v.storage = some pl → ∃ ty, v.ty = .value ty ∧ pt.Has pl ty.isHeap

theorem Visible.sub (h : pt.Sub pt') (hv : Visible pt v) : Visible pt' v := fun pl hpl =>
  let ⟨ty, hty, hp⟩ := hv pl hpl
  ⟨ty, hty, h.has hp⟩

def Listed (cells : List Bool) (v : Variable) : Prop :=
  ∀ pl, placeOf? v.storage = some pl → ∃ i ty, pl = .global i ∧ v.ty = .value ty ∧ cells[i]? = some ty.isHeap

theorem Listed.mono (h : Listed cells v) (hc : cells <+: cells') : Listed cells' v := fun pl hpl => by
  obtain ⟨i, ty, hi, hty, hcell⟩ := h pl hpl
  obtain ⟨more, rfl⟩ := hc
  have hlt : i < cells.length := (List.getElem?_eq_some_iff.mp hcell).1
  exact ⟨i, ty, hi, hty, (List.getElem?_append_left hlt).trans hcell⟩

def Taken (s : LowerState) : Place → Prop
  | .slot i => i < s.scopes.slotsUsed
  | .global i => i < s.cells

structure Facts.Bounded (s : LowerState) (f : Facts) : Prop where
  regs : ∀ r w, f.regs r = some w → r < s.nextReg
  places : ∀ pl heap, f.places pl = some heap → Taken s pl
  fresh : f.fresh = none

def Point.Bounded (s : LowerState) (pt : Point) : Prop :=
  match pt with
  | .body f => f.Bounded s
  | .left _ => False
  | .dead => True

theorem Taken.mono (h : Taken s pl) (hused : s.scopes.slotsUsed ≤ s'.scopes.slotsUsed) (hcells : s.cells ≤ s'.cells) :
    Taken s' pl := by
  cases pl with
  | slot => exact Nat.lt_of_lt_of_le h hused
  | global => exact Nat.lt_of_lt_of_le h hcells

theorem Point.Bounded.mono {pt : Point} (h : pt.Bounded s) (hreg : s.nextReg ≤ s'.nextReg)
    (hused : s.scopes.slotsUsed ≤ s'.scopes.slotsUsed) (hcells : s.cells ≤ s'.cells) : pt.Bounded s' := by
  cases pt with
  | dead => trivial
  | left => exact h.elim
  | body =>
    exact ⟨fun r w hr => Nat.lt_of_lt_of_le (h.regs r w hr) hreg,
      fun pl b hb => (h.places pl b hb).mono hused hcells, h.fresh⟩

structure Fit (C : Context) (s : LowerState) (pt : Point) : Prop where
  params : C.rules.params ≤ s.nextReg
  point : pt.Bounded s
  slots : ∀ i j : Nat, s.scopes.slots[i]? = some j → j = i
  used : s.scopes.slotsUsed ≤ s.scopes.slots.size
  roots : 0 < s.scopes.rootScopes.size
  locals : ∀ v ∈ s.scopes.locals, Visible pt v
  globals : ∀ v ∈ s.globals, Visible pt v
  cells : C.cells.length = s.cells
  table : ∀ v ∈ s.globals, Listed C.cells v

theorem Fit.bounded (h : Fit C s (.body f)) : f.Bounded s :=
  h.point

/-- Whether the innermost root scope is needed so far. -/
def required (s : LowerState) : Bool :=
  (s.scopes.rootScopes.back?.map RootScope.required).getD false

def roomAt (C : Context) (s : LowerState) : Room :=
  ⟨required s, s.nextReg, s.scopes.slots.size, C.cells⟩

/-! ### What stays -/

def blank (v : Variable) : Variable :=
  match v.storage with
  | .constant _ => { v with storage := .constant "" }
  | _ => v

theorem visible_blank : Visible pt (blank v) ↔ Visible pt v := by
  obtain ⟨name, ty, storage⟩ := v
  cases storage <;> exact Iff.rfl

theorem listed_blank : Listed cells (blank v) ↔ Listed cells v := by
  obtain ⟨name, ty, storage⟩ := v
  cases storage <;> exact Iff.rfl

/-- Scopes without what a plain block may change: texts, the mark of the statement, and whether the
innermost root scope is needed. -/
def skeleton (s : Scopes Body) : Scopes Body :=
  { s with
    locals := s.locals.map blank
    dirty := false
    rootScopes := s.rootScopes.modify (s.rootScopes.size - 1) fun r => { r with required := false } }

structure Stable (s s' : LowerState) : Prop where
  scopes : skeleton s'.scopes = skeleton s.scopes
  globals : s'.globals.map blank = s.globals.map blank
  cells : s'.cells = s.cells
  nextReg : s.nextReg ≤ s'.nextReg
  required : Flow.required s = true → Flow.required s' = true
  dirty : s'.scopes.dirty = true → s.scopes.dirty = true ∨ Flow.required s' = true

theorem Stable.refl (s : LowerState) : Stable s s :=
  ⟨rfl, rfl, rfl, Nat.le_refl _, id, Or.inl⟩

theorem Stable.trans (h : Stable s s') (h' : Stable s' s'') : Stable s s'' where
  scopes := h'.scopes.trans h.scopes
  globals := h'.globals.trans h.globals
  cells := h'.cells.trans h.cells
  nextReg := Nat.le_trans h.nextReg h'.nextReg
  required := h'.required ∘ h.required
  dirty := fun hd => (h'.dirty hd).elim (fun hd => (h.dirty hd).imp id h'.required) Or.inr

theorem Stable.slots (h : Stable s s') : s'.scopes.slots = s.scopes.slots := by
  have hslots := congrArg Scopes.slots h.scopes
  exact hslots

theorem Stable.room (h : Stable s s') : (roomAt C s).Le (roomAt C s') :=
  ⟨h.required, h.nextReg, by simp only [roomAt, h.slots, Nat.le_refl], List.prefix_rfl⟩

/-- A step of lowering from one state and point to another. -/
structure Goes (C : Context) (loud : Bool) (s : LowerState) (pt : Point) (s' : LowerState) (pt' : Point) :
    Prop where
  code : ∃ is, s'.code.toList = s.code.toList ++ is ∧ Flows C.rules (roomAt C s') pt is pt'
  sub : pt.Sub pt'
  kept : Stable s s'
  quiet : loud = false → s'.scopes = s.scopes
  fit : Fit C s' pt'

theorem Fit.sub_refl (h : Fit C s pt) : pt.Sub pt := by
  cases pt with
  | dead => trivial
  | left => exact h.point.elim
  | body f => exact ⟨.refl f, rfl⟩

theorem Goes.refl (h : Fit C s pt) : Goes C loud s pt s pt :=
  ⟨⟨[], (List.append_nil _).symm, .nil⟩, h.sub_refl, .refl s, fun _ => rfl, h⟩

theorem Goes.trans (h : Goes C loud s pt s' pt') (h' : Goes C loud s' pt' s'' pt'') : Goes C loud s pt s'' pt'' where
  code := by
    obtain ⟨is, hcode, hflow⟩ := h.code
    obtain ⟨js, hcode', hflow'⟩ := h'.code
    refine ⟨is ++ js, ?_, (hflow.mono h'.kept.room).append hflow'⟩
    rw [hcode', hcode, List.append_assoc]
  sub := h.sub.trans h'.sub
  kept := h.kept.trans h'.kept
  quiet := fun hl => (h'.quiet hl).trans (h.quiet hl)
  fit := h'.fit

theorem Goes.louder (h : Goes C loud s pt s' pt') : Goes C true s pt s' pt' :=
  ⟨h.code, h.sub, h.kept, nofun, h.fit⟩

/-- A step of lowering keeps the discipline. -/
def Emits (C : Context) (loud : Bool) {α : Type} (known : List (Reg × Word)) (x : Lower α)
    (gives : α → List (Reg × Word)) : Prop :=
  ∀ s pt a s', x C.env s = .ok a s' → Fit C s pt → pt.KnowsAll C.rules known →
    ∃ pt', Goes C loud s pt s' pt' ∧ pt'.KnowsAll C.rules (gives a)

namespace Emits

variable {x : Lower α}

theorem pure (h : gives a ⊆ known) : Emits C loud known (pure a) gives := by
  intro s pt b s' hx hfit hk
  obtain ⟨rfl, rfl⟩ := pure_ok hx
  exact ⟨pt, .refl hfit, fun y hy => hk y (h hy)⟩

theorem fail : Emits C loud known (Lower.fail cause loc) gives :=
  fun _ _ _ _ hx => (fail_ok hx).elim

theorem bind {f : α → Lower β} (hx : Emits C loud known x gives)
    (hf : ∀ a, Emits C loud (gives a ++ known) (f a) last) : Emits C loud known (x >>= f) last := by
  intro s pt b s' hb hfit hk
  obtain ⟨a, t, hxa, hfa⟩ := bind_ok hb
  obtain ⟨pt₁, hgo, hgives⟩ := hx s pt a t hxa hfit hk
  have hboth : pt₁.KnowsAll C.rules (gives a ++ known) := fun y hy =>
    (List.mem_append.mp hy).elim (hgives y) (hgo.sub.knowsAll hk y)
  obtain ⟨pt₂, hgo', hlast⟩ := hf a t pt₁ b s' hfa hgo.fit hboth
  exact ⟨pt₂, hgo.trans hgo', hlast⟩

theorem weaken (h : Emits C loud known x gives) (hk : known ⊆ known') : Emits C loud known' x gives :=
  fun s pt a s' hx hfit hk' => h s pt a s' hx hfit fun y hy => hk' y (hk hy)

theorem louder (h : Emits C loud known x gives) : Emits C true known x gives := by
  intro s pt a s' hx hfit hk
  obtain ⟨pt', hgo, hgives⟩ := h s pt a s' hx hfit hk
  exact ⟨pt', hgo.louder, hgives⟩

end Emits

/-! ### Writing a register -/

def written (s : LowerState) (i : Instr) : LowerState :=
  { s with code := s.code.push i, nextReg := s.nextReg + 1 }

def Point.put (r : Reg) (w : Word) : Point → Point
  | .body f => .body (f.put r w)
  | pt => pt

theorem Facts.put_self : (f.put r w).Knows c r w :=
  Or.inr (if_pos rfl)

theorem Facts.put_within (h : ∀ x v, f.regs x = some v → x < r) : f.Within (f.put r w) := by
  refine ⟨fun x v hx => ?_, fun _ _ hp => hp⟩
  have hne : x ≠ r := Nat.ne_of_lt (h x v hx)
  simp only [put, hne, if_false]
  exact hx

theorem kept_written (s : LowerState) (i : Instr) : Stable s (written s i) :=
  ⟨rfl, rfl, rfl, Nat.le_succ _, id, Or.inl⟩

theorem Fit.sub_put (h : Fit C s pt) (w : Word) : pt.Sub (pt.put s.nextReg w) := by
  cases pt with
  | dead => trivial
  | left => exact h.point.elim
  | body => exact ⟨put_within h.bounded.regs, rfl⟩

theorem Fit.written (h : Fit C s pt) (i : Instr) (w : Word) : Fit C (Flow.written s i) (pt.put s.nextReg w) where
  params := Nat.le_succ_of_le h.params
  point := by
    cases pt with
    | dead => trivial
    | left => exact h.point.elim
    | body =>
      obtain ⟨hregs, hplaces, hfresh⟩ := h.bounded
      refine ⟨fun r v hr => ?_, hplaces, hfresh⟩
      by_cases hrd : r = s.nextReg
      · rw [hrd]
        exact Nat.lt_succ_self _
      · simp only [put, hrd, if_false] at hr
        exact Nat.lt_succ_of_lt (hregs r v hr)
  slots := h.slots
  used := h.used
  roots := h.roots
  locals := fun v hv => (h.locals v hv).sub (h.sub_put w)
  globals := fun v hv => (h.globals v hv).sub (h.sub_put w)
  cells := h.cells
  table := h.table

theorem Fit.goes_written (h : Fit C s pt)
    (hstep : ∀ f, pt = .body f → Step C.rules (roomAt C (Flow.written s i)) f i (f.put s.nextReg w)) :
    Goes C false s pt (Flow.written s i) (pt.put s.nextReg w) where
  code := by
    refine ⟨[i], by simp [Flow.written], ?_⟩
    cases pt with
    | dead => exact .dead
    | left => exact h.point.elim
    | body f => exact .step (hstep f rfl) .nil
  sub := h.sub_put w
  kept := kept_written s i
  quiet := fun _ => rfl
  fit := h.written i w

theorem Fit.knows_written (h : Fit C s pt) : (pt.put s.nextReg w).KnowsAll C.rules [(s.nextReg, w)] := by
  intro x hx
  cases List.mem_singleton.mp hx
  cases pt with
  | dead => trivial
  | left => exact h.point.elim
  | body => exact put_self

theorem Emits.write {i : Reg → Instr} (hstep : ∀ f b d, f.fresh = none → C.rules.params ≤ d → d < b.registers →
      (Point.body f).KnowsAll C.rules known → Step C.rules b f (i d) (f.put d w)) :
    Emits C false known (do let d ← fresh; emit (i d); return d) fun d => [(d, w)] := by
  intro s pt a s' hx hfit hk
  have hrun : (do let d ← fresh; emit (i d); return d : Lower Reg) C.env s =
      .ok s.nextReg (written s (i s.nextReg)) := rfl
  cases hrun.symm.trans hx
  refine ⟨_, hfit.goes_written fun f hf => ?_, hfit.knows_written⟩
  subst hf
  exact hstep f _ _ hfit.bounded.fresh hfit.params (Nat.lt_succ_self _) hk

section Primitives

theorem constant_emits {v : Value} (hv : v.refs = []) : Emits C false known (constant v) fun d => [(d, .plain)] :=
  Emits.write fun _ _ _ hf hd _ _ => .constant hf hd hv

theorem unary_emits (op : UnaryOp) (r : Reg) : Emits C false known (unary op r) fun d => [(d, .plain)] :=
  Emits.write fun _ _ _ hf hd _ _ => .unary hf hd

theorem binary_emits (op : BinaryOp) (l r : Reg) : Emits C false known (binary op l r) fun d => [(d, .plain)] :=
  Emits.write fun _ _ _ hf hd _ _ => .binary hf hd

theorem elementOf_emits (hr : (r, w) ∈ known) : Emits C false known (Lower.elementOf r) fun d => [(d, .element)] :=
  Emits.write fun _ _ _ hf hd _ hk => .element hf hd (hk _ hr)

def Covers (known : List (Reg × Word)) (args : List Reg) : Prop :=
  ∀ r ∈ args, ∃ w, (r, w) ∈ known

theorem Covers.knows (h : Covers known args) (hk : (Point.body f).KnowsAll c known) :
    ∀ r ∈ args, ∃ w, f.Knows c r w := fun r hr =>
  let ⟨w, hw⟩ := h r hr
  ⟨w, hk _ hw⟩

theorem call_emits_quiet (e : Entry) (ho : e.ordinary = true) (ha : e.allocates = false)
    (hs : C.rules.steady = true → e.isChance = false) (hr : Covers known args) :
    Emits C false known (call e args) fun d => [(d, resultWord e)] := by
  have hcall : call e args = do let d ← fresh; emit (.entry d e args); return d := by
    simp only [call, ha]
    rfl
  rw [hcall]
  exact Emits.write fun f b d hf hd _ hk =>
    .entry hf hd ho (fun h => by rw [ha] at h; cases h) hs (hr.knows hk)

theorem skeleton_markDirty (s : Scopes Body) : skeleton s.markDirty = skeleton s := by
  simp only [skeleton, markDirty, requireRootScope]
  congr 1
  apply Array.ext_getElem?
  intro i
  simp only [Array.getElem?_modify, Array.size_modify]
  split
  · cases s.rootScopes[i]? <;> rfl
  · rfl

theorem required_markDirty (h : 0 < s.scopes.rootScopes.size) :
    required { s with scopes := s.scopes.markDirty } = true := by
  simp only [required, markDirty, requireRootScope, Array.back?_eq_getElem?,
    Array.getElem?_modify, Array.size_modify, if_true]
  have hi : s.scopes.rootScopes.size - 1 < s.scopes.rootScopes.size := by omega
  rw [Array.getElem?_eq_getElem hi]
  rfl

theorem Fit.goes_markDirty (h : Fit C s pt) : Goes C true s pt { s with scopes := s.scopes.markDirty } pt where
  code := ⟨[], (List.append_nil _).symm, .nil⟩
  sub := h.sub_refl
  kept :=
    { scopes := skeleton_markDirty s.scopes
      globals := rfl
      cells := rfl
      nextReg := Nat.le_refl _
      required := fun _ => required_markDirty h.roots
      dirty := fun _ => Or.inr (required_markDirty h.roots) }
  quiet := nofun
  fit :=
    { h with
      point := h.point.mono (Nat.le_refl _) (Nat.le_refl _) (Nat.le_refl _)
      roots := by
        simp only [markDirty, requireRootScope, Array.size_modify]
        exact h.roots }

theorem call_emits (e : Entry) (ho : e.ordinary = true) (hs : C.rules.steady = true → e.isChance = false)
    (hr : Covers known args) : Emits C true known (call e args) fun d => [(d, resultWord e)] := by
  cases ha : e.allocates with
  | false => exact (call_emits_quiet e ho ha hs hr).louder
  | true =>
    intro s pt a s' hx hfit hk
    have hcall : call e args =
        do onScopes .markDirty; let d ← fresh; emit (.entry d e args); return d := by
      simp only [call, ha]
      rfl
    rw [hcall] at hx
    have hdirty := hfit.goes_markDirty
    cases hx
    refine ⟨_, hdirty.trans (hdirty.fit.goes_written fun f hf => ?_).louder, hdirty.fit.knows_written⟩
    subst hf
    exact .entry hfit.bounded.fresh hfit.params ho (fun _ => required_markDirty hfit.roots) hs (hr.knows hk)

theorem Fit.goes_emitted (h : Fit C s pt) (hsub : pt.Sub pt') (hpt : pt'.Bounded s)
    (hflow : Flows C.rules (roomAt C s) pt [i] pt') : Goes C false s pt { s with code := s.code.push i } pt' where
  code := ⟨[i], by simp, hflow⟩
  sub := hsub
  kept := ⟨rfl, rfl, rfl, Nat.le_refl _, id, Or.inl⟩
  quiet := fun _ => rfl
  fit :=
    { h with
      point := hpt.mono (Nat.le_refl _) (Nat.le_refl _) (Nat.le_refl _)
      locals := fun v hv => (h.locals v hv).sub hsub
      globals := fun v hv => (h.globals v hv).sub hsub }

theorem poll_emits : Emits C false known poll fun _ => [] := by
  intro s pt a s' hx hfit hk
  cases hx
  refine ⟨pt, hfit.goes_emitted hfit.sub_refl hfit.point ?_, nofun⟩
  cases pt with
  | dead => exact .dead
  | left => exact hfit.point.elim
  | body => exact .step (.poll hfit.bounded.fresh) .nil

end Primitives

/-! ### Steps of a statement -/

def Point.settle : Point → Point
  | .body f => .body f.settle
  | pt => pt

theorem Facts.settle_regs (h : f.settle.regs r = some w) : f.regs r = some w ∧ w = .plain := by
  obtain ⟨hr, hw⟩ := Option.filter_eq_some_iff.mp h
  exact ⟨hr, by simpa using hw⟩

theorem Facts.settle_within (f : Facts) : f.settle.Within f :=
  ⟨fun _ _ h => (settle_regs h).1, fun _ _ h => h⟩

theorem Facts.Within.settle (h : f.Within g) : f.settle.Within g.settle := by
  refine ⟨fun r w hr => ?_, h.places⟩
  obtain ⟨hf, rfl⟩ := settle_regs hr
  exact Option.filter_eq_some_iff.mpr ⟨h.regs r _ hf, by simp⟩

theorem Facts.settle_settle (f : Facts) : f.settle.Within f.settle.settle := by
  refine ⟨fun r w hr => ?_, fun _ _ h => h⟩
  exact Option.filter_eq_some_iff.mpr ⟨hr, by simp [(settle_regs hr).2]⟩

theorem Facts.settled_settle (h : f.fresh = none) : f.settle.Settled :=
  ⟨fun _ _ hr => (settle_regs hr).2, h⟩

theorem Point.Sub.settle {pt : Point} (h : pt.Sub pt') : pt.settle.Sub pt'.settle := by
  cases pt' with
  | dead => cases pt <;> trivial
  | left => cases pt <;> exact h.elim
  | body =>
    cases pt with
    | dead | left => exact h.elim
    | body => exact ⟨h.1.settle, h.2⟩

theorem Point.Bounded.settle_sub {pt : Point} (h : pt.Bounded s) : pt.settle.Sub pt := by
  cases pt with
  | dead => trivial
  | left => exact h.elim
  | body f => exact ⟨f.settle_within, rfl⟩

theorem Point.settle_idem {pt : Point} (h : pt.Bounded s) : pt.settle.Sub pt.settle.settle := by
  cases pt with
  | dead => trivial
  | left => exact h.elim
  | body f => exact ⟨f.settle_settle, rfl⟩

def Context.withCells (C : Context) (cells : List Bool) : Context :=
  { C with cells }

def bones (s : Scopes Body) : Scopes Body :=
  { skeleton s with locals := #[], slots := #[], slotsUsed := 0 }

/-- What a statement keeps. -/
structure Grown (s s' : LowerState) : Prop where
  scopes : bones s'.scopes = bones s.scopes
  locals : (s.scopes.locals.map blank).toList <+: (s'.scopes.locals.map blank).toList
  slots : s.scopes.slots.size ≤ s'.scopes.slots.size
  used : s.scopes.slotsUsed ≤ s'.scopes.slotsUsed
  globals : 0 < s.scopes.controlDepth → s'.globals.map blank = s.globals.map blank
  nextReg : s.nextReg ≤ s'.nextReg
  required : Flow.required s = true → Flow.required s' = true
  dirty : s'.scopes.dirty = true → s.scopes.dirty = true ∨ Flow.required s' = true

theorem Stable.grown (h : Stable s s') : Grown s s' where
  scopes := by simp only [bones, h.scopes]
  locals := by
    have hlocals := congrArg locals h.scopes
    simp only [skeleton] at hlocals
    exact hlocals ▸ List.prefix_rfl
  slots := Nat.le_of_eq (congrArg Array.size h.slots.symm)
  used := by
    have hused := congrArg slotsUsed h.scopes
    exact Nat.le_of_eq hused.symm
  globals := fun _ => h.globals
  nextReg := h.nextReg
  required := h.required
  dirty := h.dirty

theorem Grown.control (h : Grown s s') : s'.scopes.control = s.scopes.control := by
  have hcontrol := congrArg Scopes.control h.scopes
  exact hcontrol

theorem Grown.trans (h : Grown s s') (h' : Grown s' s'') : Grown s s'' where
  scopes := h'.scopes.trans h.scopes
  locals := h.locals.trans h'.locals
  slots := Nat.le_trans h.slots h'.slots
  used := Nat.le_trans h.used h'.used
  globals := fun hd => (h'.globals (by
    simp only [controlDepth, h.control]
    exact hd)).trans (h.globals hd)
  nextReg := Nat.le_trans h.nextReg h'.nextReg
  required := h'.required ∘ h.required
  dirty := fun hd => (h'.dirty hd).elim (fun hd => (h.dirty hd).imp id h'.required) Or.inr

/-- A step of a statement: of what was known, registers with pointers may be forgotten. -/
structure Moves (C : Context) (s : LowerState) (pt : Point) (cells : List Bool) (s' : LowerState)
    (pt' : Point) : Prop where
  code : ∃ is, s'.code.toList = s.code.toList ++ is ∧ Flows C.rules (roomAt (C.withCells cells) s') pt is pt'
  sub : pt.settle.Sub pt'
  grown : Grown s s'
  table : C.cells <+: cells
  inner : 0 < s.scopes.controlDepth → cells = C.cells
  fit : Fit (C.withCells cells) s' pt'

theorem Goes.moves (hfit : Fit C s pt) (h : Goes C loud s pt s' pt') : Moves C s pt C.cells s' pt' :=
  ⟨h.code, hfit.point.settle_sub.trans h.sub, h.kept.grown, List.prefix_rfl, fun _ => rfl, h.fit⟩

theorem Moves.trans (hfit : Fit C s pt) (h : Moves C s pt cells s' pt')
    (h' : Moves (C.withCells cells) s' pt' cells' s'' pt'') : Moves C s pt cells' s'' pt'' where
  code := by
    obtain ⟨is, hcode, hflow⟩ := h.code
    obtain ⟨js, hcode', hflow'⟩ := h'.code
    have hroom : (roomAt (C.withCells cells) s').Le (roomAt (C.withCells cells') s'') :=
      ⟨h'.grown.required, h'.grown.nextReg, h'.grown.slots, h'.table⟩
    refine ⟨is ++ js, ?_, (hflow.mono hroom).append hflow'⟩
    rw [hcode', hcode, List.append_assoc]
  sub := ((Point.settle_idem hfit.point).trans h.sub.settle).trans h'.sub
  grown := h.grown.trans h'.grown
  table := h.table.trans h'.table
  inner := fun hd => (h'.inner (by
    simp only [controlDepth, h.grown.control]
    exact hd)).trans (h.inner hd)
  fit := h'.fit

end Blockwork.Flow
