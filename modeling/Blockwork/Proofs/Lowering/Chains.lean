import Blockwork.Proofs.Lowering.Scopes

/-! # Closing scopes
A scope that is closed puts its body back as one instruction, or in place. -/

namespace Blockwork.Flow

open Lower

variable {e : Point} {c : Rules}

/-! ### Closing a scope -/

def bodyCode (framed : Bool) (is : List Instr) : List Instr :=
  if framed then [.rooted is] else is

theorem polled_bodyCode (framed : Bool) (is : List Instr) : Polled (bodyCode framed (is ++ [.poll])) := by
  cases framed with
  | true => exact .rooted
  | false => exact .plain

theorem Point.Falls.of_inner (h : e.Falls f.inner) : e.Falls f := by
  cases e with
  | dead => trivial
  | left => exact h
  | body => exact ⟨⟨h.1.regs, h.1.places⟩, h.2⟩

theorem Flows.weaken_end (h : Flows c b pt is (.body g)) (hw : f.Weaker g) : Flows c b pt is (.body f) := by
  simpa using h.append (.weaken hw .nil)

theorem Flows.in_place (h : Flows c b (.body f.inner) is e) (hf : f.Settled) (hsub : (Point.body f.inner).Sub e)
    (he : e.Bounded s) : ∃ pt', Flows c b (.body f) is pt' ∧ (pt' = .body f ∨ pt' = .dead) := by
  obtain ⟨regs, places, fresh, level⟩ := f
  cases level with
  | inner =>
    cases e with
    | dead => exact ⟨.dead, h, Or.inr rfl⟩
    | left => exact he.elim
    | body => exact ⟨_, h.weaken_end ⟨hsub.1, hf.fresh.trans he.fresh.symm, hsub.2⟩, Or.inl rfl⟩
  | top =>
    have hout := h.outer
    cases e with
    | dead => exact ⟨.dead, hout, Or.inr rfl⟩
    | left => exact he.elim
    | body g =>
      have hweaker : Facts.Weaker ⟨regs, places, fresh, .top⟩ g.outer :=
        ⟨⟨hsub.1.regs, hsub.1.places⟩, hf.fresh.trans he.fresh.symm, rfl⟩
      exact ⟨_, Flows.weaken_end hout hweaker, Or.inl rfl⟩

theorem Point.Bounded.falls (he : e.Bounded s) (hsub : (Point.body f).Sub e) : e.Falls f := by
  cases e with
  | dead => trivial
  | left => exact he.elim
  | body => exact ⟨hsub.1, he.fresh⟩

theorem bodyCode_flows (hf : f.Settled) (hflow : Flows c b' (.body f.inner) is e) (hsub : (Point.body f.inner).Sub e)
    (he : e.Bounded s) (hroom : b'.Le { b with framed := true }) (hbare : framed = false → b'.Le b) :
    (∃ e', Flows c b (.body f.inner) (bodyCode framed is) e' ∧ e'.Falls f) ∧
      ∃ pt', Flows c b (.body f) (bodyCode framed is) pt' ∧ (pt' = .body f ∨ pt' = .dead) := by
  have hfalls : e.Falls f.inner := he.falls hsub
  cases framed with
  | true =>
    have hin : Flows c { b with framed := true } (.body f.inner.inner) is e := by
      exact hflow.mono hroom
    exact ⟨⟨.body f.inner, .rooted hf.inner hin hfalls .nil, ⟨fun _ _ h => h, fun _ _ h => h⟩, hf.fresh⟩,
      .body f, .rooted hf (hflow.mono hroom) hfalls.of_inner .nil, Or.inl rfl⟩
  | false =>
    have hbody := hflow.mono (hbare rfl)
    exact ⟨⟨e, hbody, hfalls.of_inner⟩, hbody.in_place hf hsub he⟩

theorem cutFrom_ok (h : cutFrom n env s = .ok is s') (hn : n = front.length) (hcode : s.code.toList = front ++ back) :
    is = back ∧ s' = { s with code := front.toArray } := by
  have hback : (s.code.extract n s.code.size).toList = back := by
    rw [Array.toList_extract, hn, hcode, ← Array.length_toList, hcode, List.length_append]
    simp [List.extract]
  have hfront : s.code.shrink n = front.toArray := by
    apply Array.ext'
    rw [Array.toList_shrink, hn, hcode]
    simp
  cases h
  exact ⟨hback, by rw [hfront]⟩

theorem emitAll_ok (code : List Instr) :
    ∀ s : LowerState, emitAll code env s = .ok () { s with code := s.code ++ code.toArray } := by
  induction code with
  | nil => exact fun s => rfl
  | cons i code ih =>
    intro s
    have hpush : s.code.push i ++ code.toArray = s.code ++ (i :: code).toArray := by
      apply Array.ext'
      simp
    show emitAll code env { s with code := s.code.push i } = _
    rw [ih, hpush]

/-- A closed scope is put back: the code before its statement stays, and what follows it goes on from the
point before the statement. -/
structure Lands (C : Context) (x : LowerState) (front : List Instr) (mid : Point) (v : Operand)
    (s' : LowerState) (pt' : Point) : Prop where
  code : ∃ is, s'.code.toList = front ++ is ∧ Flows C.rules (roomAt C s') mid is pt'
  sub : mid.Sub pt'
  scopes : s'.scopes = x.scopes
  globals : s'.globals.map blank = x.globals.map blank
  cells : s'.cells = x.cells
  nextReg : x.nextReg ≤ s'.nextReg
  fit : Fit C s' pt'
  value : pt'.KnowsAll C.rules (known v)
  plain : ∀ x ∈ known v, x.2 = .plain

theorem Goes.lands (h : Goes C false x pt s' pt') (hcode : x.code.toList = front ++ test)
    (htest : Flows C.rules (roomAt C x) mid test pt) (hsub : mid.Sub pt) (hv : pt'.KnowsAll C.rules (known v))
    (hplain : ∀ x ∈ known v, x.2 = .plain) : Lands C x front mid v s' pt' where
  code := by
    obtain ⟨is, his, hflow⟩ := h.code
    refine ⟨test ++ is, ?_, (htest.mono h.kept.room).append hflow⟩
    rw [his, hcode, List.append_assoc]
  sub := hsub.trans h.sub
  scopes := h.quiet rfl
  globals := h.kept.globals
  cells := h.kept.cells
  nextReg := h.kept.nextReg
  fit := h.fit
  value := hv
  plain := hplain

def BodyFlows (c : Rules) (b : Room) (code : List Instr) (f : Facts) : Prop :=
  (∃ e, Flows c b (.body f.inner) code e ∧ e.Falls f) ∧
    ∃ pt', Flows c b (.body f) code pt' ∧ (pt' = .body f ∨ pt' = .dead)

section CloseBody

variable {pt : Point}

theorem Fit.goes_closed (h : Fit C x pt)
    (hflow : ∀ f, pt = .body f → Flows C.rules (roomAt C x) (.body f) [i] (.body f)) :
    Goes C false x pt { x with code := x.code.push i } pt := by
  refine h.goes_emitted h.sub_refl h.point ?_
  cases pt with
  | dead => exact .dead
  | left => exact h.point.elim
  | body f => exact hflow f rfl

theorem flushed_flows (hf : f.Settled) (hfg : f.Within g) (hd : c.params ≤ d)
    (hbelow : ∀ r w, g.regs r = some w → r < d) (hframed : flush = true → b.framed = true)
    (hbody : ∃ e, Flows c b (.body g.inner) code e ∧ e.Falls g) :
    ∃ e, Flows c b (.body g.inner) (if flush then code ++ [.entry d .flush []] else code) e ∧ e.Falls f := by
  obtain ⟨e, hflow, hfalls⟩ := hbody
  cases flush with
  | false =>
    refine ⟨e, hflow, ?_⟩
    cases e with
    | dead => trivial
    | left => exact hfalls
    | body => exact ⟨hfg.trans hfalls.1, hfalls.2⟩
  | true =>
    cases e with
    | dead => exact ⟨.dead, hflow.append .dead, trivial⟩
    | left => exact hfalls.elim
    | body =>
      refine ⟨_, hflow.append (.step (.flush hfalls.2 hd (hframed rfl)) .nil), ⟨fun r w hr => ?_, ?_⟩, hfalls.2⟩
      · have hne : r ≠ d := Nat.ne_of_lt (hbelow r w (hfg.regs r w hr))
        simp only [Facts.put, hne, if_false]
        exact ((hf.within_settle.trans (hfg.trans hfalls.1).settle)).regs r w hr
      · exact fun pl heap hp => hfalls.1.places pl heap (hfg.places pl heap hp)

theorem known_bool (h : pt.Knows c r .plain) : pt.KnowsAll c (known (.reg .bool r)) := fun y hy => by
  cases List.mem_singleton.mp hy
  exact h

theorem plain_bool : ∀ x ∈ known (.reg .bool r), x.2 = .plain := fun y hy => by
  cases List.mem_singleton.mp hy
  rfl

theorem whileLoop_lands {cond : Reg} (hfit : Fit C x pt) (hcode : x.code.toList = front ++ test)
    (htest : Flows C.rules (roomAt C x) mid test pt) (hsub : mid.Sub pt) (hhead : mid.IsSettled)
    (hsettled : pt.IsSettled) (hflush : flush = true → required x = true) (hcounted : C.rules.counted = false)
    (hpolled : Polled code) (hbody : ∀ f, pt = .body f → BodyFlows C.rules (roomAt C x) code f)
    (hx : closeBody (.whileLoop front.length cond flush) code C.env x = .ok v s') :
    ∃ pt', Lands C x front mid v s' pt' := by
  obtain ⟨back, x₁, hcut, hrest⟩ := bind_ok hx
  obtain ⟨rfl, rfl⟩ := cutFrom_ok hcut rfl hcode
  let loop : Instr := .whileLoop back cond (if flush then code ++ [.entry x.nextReg .flush []] else code)
  let x₂ : LowerState := { x with code := front.toArray.push loop, nextReg := x.nextReg + 1 }
  have hroom : (roomAt C x).Le (roomAt C x₂) := ⟨id, Nat.le_succ _, Nat.le_refl _, List.prefix_rfl⟩
  have hloop : Flows C.rules (roomAt C x₂) mid [loop] pt := by
    cases mid with
    | left => exact hhead.elim
    | dead =>
      cases pt with
      | dead => exact .dead
      | left => exact hsettled.elim
      | body => exact hsub.elim
    | body =>
      have hasks : Polled (if flush then code ++ [.entry x.nextReg .flush []] else code) := by
        split
        · exact .flushed hpolled
        · exact hpolled
      cases pt with
      | left => exact hsettled.elim
      | dead => exact .whileDead hcounted hasks hhead (htest.mono hroom)
      | body g =>
        obtain ⟨e, hflow, hfalls⟩ := flushed_flows hhead hsub.1 hfit.params hfit.bounded.regs hflush (hbody g rfl).1
        exact .whileLoop hcounted hasks hhead hsettled hsub.1 hsub.2 (htest.mono hroom) (hflow.mono hroom) hfalls .nil
  have hfit₂ : Fit C x₂ pt :=
    { hfit with
      params := Nat.le_succ_of_le hfit.params
      point := hfit.point.mono (Nat.le_succ _) (Nat.le_refl _) (Nat.le_refl _) }
  obtain ⟨drop, x₃, hfresh, hrest⟩ := bind_ok hrest
  cases hfresh
  obtain ⟨⟨⟩, x₄, hemit, hrest⟩ := bind_ok hrest
  obtain rfl : x₂ = x₄ := by
    cases hemit
    rfl
  obtain ⟨r, x₅, hconst, hlast⟩ := bind_ok hrest
  obtain ⟨rfl, rfl⟩ := pure_ok hlast
  obtain ⟨pt', hgo, hknown⟩ := Emits.plain (constant_emits rfl) hfit₂ hconst
  have hfront : x₂.code.toList = front ++ [loop] := by simp [x₂]
  have hlands := hgo.lands hfront hloop hsub (known_bool hknown) plain_bool
  exact ⟨pt', { hlands with nextReg := Nat.le_trans (Nat.le_succ _) hlands.nextReg }⟩

theorem closeBody_lands (hfit : Fit C x pt) (hcode : x.code.toList = front ++ test)
    (htest : Flows C.rules (roomAt C x) mid test pt) (hsub : mid.Sub pt) (hhead : mid.IsSettled)
    (hsettled : pt.IsSettled) (hroot : root.required = required x) (hok : BodyOk C.rules root front.length pt body)
    (hpolled : Polled code) (hbody : ∀ f, pt = .body f → BodyFlows C.rules (roomAt C x) code f)
    (hx : closeBody body code C.env x = .ok v s') : ∃ pt', Lands C x front mid v s' pt' := by
  cases body with
  | branch run =>
    obtain ⟨⟨⟩, x₁, hemit, hlast⟩ := bind_ok hx
    cases hemit
    obtain ⟨rfl, rfl⟩ := pure_ok hlast
    have hgo : Goes C false x pt { x with code := x.code.push (.ifThen run code) } pt := by
      refine hfit.goes_closed fun f hf => ?_
      subst hf
      obtain ⟨e, hflow, hfalls⟩ := (hbody f rfl).1
      exact .ifThen hsettled hflow hfalls .nil
    exact ⟨pt, hgo.lands hcode htest hsub (known_bool hok) plain_bool⟩
  | whileLoop =>
    obtain ⟨rfl, hflush, hcounted⟩ := hok
    exact whileLoop_lands hfit hcode htest hsub hhead hsettled (fun h => hroot ▸ hflush h) hcounted hpolled hbody hx
  | countLoop count =>
    obtain ⟨⟨⟩, x₁, hemit, hrest⟩ := bind_ok hx
    cases hemit
    obtain ⟨r, x₂, hunary, hlast⟩ := bind_ok hrest
    obtain ⟨rfl, rfl⟩ := pure_ok hlast
    have hgo : Goes C false x pt { x with code := x.code.push (.countLoop count code) } pt := by
      refine hfit.goes_closed fun f hf => ?_
      subst hf
      obtain ⟨e, hflow, hfalls⟩ := (hbody f rfl).1
      exact .countLoop hsettled hpolled hflow hfalls .nil
    obtain ⟨pt', hgo', hknown⟩ := Emits.plain (unary_emits _ count) hgo.fit hunary
    exact ⟨pt', (hgo.trans hgo').lands hcode htest hsub (known_bool hknown) plain_bool⟩
  | foreverLoop =>
    obtain ⟨⟨⟩, x₁, hemit, hrest⟩ := bind_ok hx
    cases hemit
    obtain ⟨r, x₂, hconst, hlast⟩ := bind_ok hrest
    obtain ⟨rfl, rfl⟩ := pure_ok hlast
    have hgo : Goes C false x pt { x with code := x.code.push (.foreverLoop code) } pt := by
      refine hfit.goes_closed fun f hf => ?_
      subst hf
      obtain ⟨e, hflow, hfalls⟩ := (hbody f rfl).1
      exact .foreverLoop hok hsettled hpolled hflow hfalls .nil
    obtain ⟨pt', hgo', hknown⟩ := Emits.plain (constant_emits rfl) hgo.fit hconst
    exact ⟨pt', (hgo.trans hgo').lands hcode htest hsub (known_bool hknown) plain_bool⟩
  | plain =>
    obtain ⟨⟨⟩, x₁, hemit, hlast⟩ := bind_ok hx
    rw [emitAll_ok] at hemit
    cases hemit
    obtain ⟨rfl, rfl⟩ := pure_ok hlast
    have hplace : ∃ pt', Flows C.rules (roomAt C x) pt code pt' ∧ (pt' = pt ∨ pt' = .dead) := by
      cases pt with
      | left => exact hsettled.elim
      | dead => exact ⟨.dead, .dead, Or.inl rfl⟩
      | body f => exact (hbody f rfl).2
    obtain ⟨pt', hflow, hpt'⟩ := hplace
    have hfit' : Fit C x pt' := hpt'.elim (fun h => h ▸ hfit) fun h => h ▸ hfit.dead (.refl x)
    have hsub' : pt.Sub pt' := hpt'.elim (fun h => h ▸ hfit.sub_refl) fun h => by
      subst h
      cases pt <;> trivial
    have hgo : Goes C false x pt { x with code := x.code ++ code.toArray } pt' :=
      { code := ⟨code, by simp, hflow⟩
        sub := hsub'
        kept := ⟨rfl, rfl, rfl, Nat.le_refl _, id, Or.inl⟩
        quiet := fun _ => rfl
        fit := { hfit' with point := hfit'.point.mono (Nat.le_refl _) (Nat.le_refl _) (Nat.le_refl _) } }
    exact ⟨pt', hgo.lands hcode htest hsub nofun nofun⟩

end CloseBody

def scopeClosed (s : LowerState) (frame : VariableFrame) (front : List Instr) : LowerState :=
  { s with
    code := front.toArray
    scopes := { s.scopes with
      control := s.scopes.control.pop
      variableFrames := s.scopes.variableFrames.pop
      locals := s.scopes.locals.shrink frame.base
      slotsUsed := frame.slotMark
      rootScopes := s.scopes.rootScopes.pop
      dirty := s.scopes.dirtyStack.back?.getD false
      dirtyStack := s.scopes.dirtyStack.pop
      closing := none } }

theorem closeRoots_run (loc : Location) (env : LowerEnv) (hroot : s.scopes.rootScopes.back? = some root)
    (hstart : root.start = front.length) (hcode : s.code.toList = front ++ back) :
    closeRoots loc env s = .ok (bodyCode (root.required || env.keepScopes) back)
      { s with code := front.toArray, scopes := { s.scopes with
        rootScopes := s.scopes.rootScopes.pop } } := by
  obtain ⟨is, t, hcut⟩ : ∃ is t, cutFrom root.start env
      { s with scopes := { s.scopes with rootScopes := s.scopes.rootScopes.pop } } = .ok is t := ⟨_, _, rfl⟩
  obtain ⟨rfl, rfl⟩ := cutFrom_ok hcut hstart hcode
  rw [closeRoots, bind_run (tryScopes_run (popRootScope_run hroot)), bind_run hcut]
  show (if (root.required || env.keepScopes) = true then _ else _ : Lower (List Instr)) env _ = _
  unfold bodyCode
  split <;> rfl

theorem closeScope_iff : closeScope loc env s = .ok v t ↔
    ∃ opener body frame code s₁ s₂, s.scopes.control.back? = some ⟨opener, .body body⟩ ∧
      s.scopes.variableFrames.back? = some frame ∧
      closeRoots opener env { scopeClosed s frame [] with
        code := s.code.push .poll
        scopes := { (scopeClosed s frame []).scopes with rootScopes := s.scopes.rootScopes } } = .ok code s₁ ∧
      closeBody body code env s₁ = .ok v s₂ ∧ settle opener env s₂ = .ok () t := by
  constructor
  · intro h
    obtain ⟨opener, s₁, hpop, hrest⟩ := bind_ok h
    obtain ⟨sc, hsc, rfl⟩ := tryScopes_ok hpop
    unfold Scopes.popControl at hsc
    split at hsc
    case h_2 => cases hsc
    case h_1 loc' body hcontrol =>
      cases hsc
      obtain ⟨⟨⟩, s₂, hpoll, hrest⟩ := bind_ok hrest
      cases hpoll
      obtain ⟨⟨⟩, s₃, hframe, hrest⟩ := bind_ok hrest
      obtain ⟨sc, hsc, rfl⟩ := tryScopes_ok hframe
      unfold Scopes.popVariableFrame at hsc
      split at hsc
      case h_1 => cases hsc
      case h_2 frame hframes =>
        cases hsc
        obtain ⟨⟨⟩, s₄, hdirty, hrest⟩ := bind_ok hrest
        obtain rfl := onScopes_ok hdirty
        obtain ⟨taken, s₅, htake, hrest⟩ := bind_ok hrest
        cases htake
        obtain ⟨code, s₆, hclose, hrest⟩ := bind_ok hrest
        obtain ⟨value, s₇, hbody, hrest⟩ := bind_ok hrest
        obtain ⟨⟨⟩, s₈, hsettle, hlast⟩ := bind_ok hrest
        obtain ⟨rfl, rfl⟩ := pure_ok hlast
        exact ⟨_, body, frame, code, s₆, s₇, hcontrol, hframes, hclose, hbody, hsettle⟩
  · rintro ⟨opener, body, frame, code, s₁, s₂, hcontrol, hframe, hroots, hbody, hsettle⟩
    have hvars := popVariableFrame_run
      (c := { s.scopes with control := s.scopes.control.pop, closing := some (.body body) }) hframe opener
    rw [closeScope, bind_run (tryScopes_run (popControl_run hcontrol)), bind_run (show poll env _ = .ok () _ from rfl),
      bind_run (tryScopes_run hvars),
      bind_run (show onScopes .restoreDirty env _ = .ok () _ from rfl),
      bind_run (show tryScopes (·.closeFrame opener) env _ = .ok (.body body) _ from rfl)]
    exact (bind_run hroots).trans ((bind_run hbody).trans (bind_run hsettle))

theorem closeScope_ok (hroot : s.scopes.rootScopes.back? = some root) (hstart : root.start = front.length)
    (hcode : s.code.toList = front ++ seg) (h : closeScope loc env s = .ok v s') :
    ∃ opener body frame s₂, s.scopes.control.back? = some ⟨opener, .body body⟩ ∧
      s.scopes.variableFrames.back? = some frame ∧
      closeBody body (bodyCode (root.required || env.keepScopes) (seg ++ [.poll])) env
        (scopeClosed s frame front) = .ok v s₂ ∧ settle opener env s₂ = .ok () s' := by
  obtain ⟨opener, body, frame, code, s₁, s₂, hcontrol, hframes, hclose, hbody, hsettle⟩ := closeScope_iff.mp h
  have hpolled : (s.code.push .poll).toList = front ++ (seg ++ [.poll]) := by
    rw [Array.toList_push, hcode, List.append_assoc]
  cases hclose.symm.trans (closeRoots_run _ _ hroot hstart hpolled)
  exact ⟨_, body, frame, s₂, hcontrol, hframes, hbody, hsettle⟩

theorem Layer.fit {inner : RootScope} (h : Layer C s root frame mark body pre before test start mid pt)
    (hfit : Fit C s pt') (hroots : stack s.scopes.rootScopes = inner :: root :: roots) (front : List Instr) :
    Fit C (scopeClosed s frame front) pt where
  params := hfit.params
  point := h.point.mono (Nat.le_refl _) (Nat.le_refl _) (Nat.le_refl _)
  slots := hfit.slots
  used := h.used
  roots := by
    have hlen := congrArg List.length (stack_pop hroots)
    simp only [stack, List.length_reverse, Array.length_toList, List.length_cons] at hlen
    show 0 < s.scopes.rootScopes.pop.size
    omega
  locals := fun v hv => by
    have hmem : v ∈ s.scopes.locals.toList.take frame.base := by
      rw [← Array.toList_shrink]
      exact Array.mem_toList_iff.mpr hv
    refine visible_blank.mp (h.locals _ ?_)
    rw [← List.map_take]
    exact List.mem_map_of_mem hmem
  globals := fun v hv =>
    visible_blank.mp (h.globals _ (List.mem_map_of_mem (Array.mem_toList_iff.mpr hv)))
  cells := hfit.cells
  table := hfit.table

theorem Layer.bodyFlows (h : Layer C s root frame mark body pre before test start mid pt) (hfit : Fit C s e)
    (hflow : Flows C.rules (roomAt C s) pt.inner seg e) (hsub : pt.inner.Sub e)
    (hframed : framed = false → required s = false) : ∀ f, pt = .body f →
      BodyFlows C.rules (roomAt C (scopeClosed s frame front)) (bodyCode framed (seg ++ [.poll])) f := by
  intro f hf
  subst hf
  have hpolled : Flows C.rules (roomAt C s) (.body f.inner) (seg ++ [.poll]) e := by
    refine hflow.append ?_
    cases e with
    | dead => exact .dead
    | left => exact hfit.point.elim
    | body => exact .step (.poll hfit.bounded.fresh) .nil
  refine bodyCode_flows h.settled hpolled hsub hfit.point
    ⟨fun _ => rfl, Nat.le_refl _, Nat.le_refl _, List.prefix_rfl⟩ fun hbare => ?_
  refine ⟨fun hr => ?_, Nat.le_refl _, Nat.le_refl _, List.prefix_rfl⟩
  have hr : required s = true := hr
  rw [hframed hbare] at hr
  cases hr

theorem Lands.ready {control : List (OpenScope Body)} {inner : RootScope}
    (h : Lands C (scopeClosed s frame front) (pre ++ before) mid v s' pt')
    (hnest : Nest C s control roots frames marks pre start)
    (hlayer : Layer C s root frame mark body pre before test start mid pt) (hle : heightOf frames ≤ frame.base)
    (hheight : frame.base ≤ s.scopes.locals.size) (hcontrol : stack s.scopes.control = open' :: control)
    (hroots : stack s.scopes.rootScopes = inner :: root :: roots)
    (hframes : stack s.scopes.variableFrames = frame :: frames) (hmarks : stack s.scopes.dirtyStack = mark :: marks)
    (hopening : s.scopes.opening = none) : Ready C s' pt' := by
  obtain ⟨is, hcode, hflow⟩ := h.code
  have hscopes := h.scopes
  have hroots' : stack s'.scopes.rootScopes = root :: roots := by
    rw [hscopes]
    exact stack_pop hroots
  have hrequired : required s' = root.required := by
    simp only [required, back?_of_stack hroots', Option.map_some, Option.getD_some]
  have hslots : s'.scopes.slots = s.scopes.slots := by
    rw [hscopes]
    rfl
  have hlocals : s'.scopes.locals = s.scopes.locals.shrink frame.base := by
    rw [hscopes]
    rfl
  have hframes' : stack s'.scopes.variableFrames = frames := by
    rw [hscopes]
    exact stack_pop hframes
  have hroom : (roomOutside C s root).Le (roomAt C s') :=
    ⟨hrequired.trans, h.nextReg, Nat.le_of_eq (congrArg Array.size hslots.symm), List.prefix_rfl⟩
  have htake : (s'.scopes.locals.toList.map blank).take (heightOf frames) =
      (s.scopes.locals.toList.map blank).take (heightOf frames) := by
    rw [hlocals, Array.toList_shrink, List.map_take, List.take_take, Nat.min_eq_left hle]
  refine
    { nest := ⟨pre, before ++ is, roots, start, ?_, ?_, ?_, (hlayer.enters.mono hroom).append hflow,
        hlayer.kept.trans h.sub⟩
      height := ?_
      fit := h.fit
      opening := ?_
      closing := ?_
      dirty := ?_
      asks := fun hmain => by
        rw [hcode]
        exact getElem?_one_append (hlayer.asks hmain) }
  · rw [hcode, List.append_assoc]
  · rw [hroots', hrequired, ← hlayer.opens]
  · have hcontrol' : stack s'.scopes.control = control := by
      rw [hscopes]
      exact stack_pop hcontrol
    have hmarks' : stack s'.scopes.dirtyStack = marks := by
      rw [hscopes]
      exact stack_pop hmarks
    rw [hcontrol', hframes', hmarks']
    exact hnest.mono h.nextReg (Nat.le_of_eq (congrArg Array.size hslots.symm))
      (Nat.le_of_eq h.cells.symm) h.globals htake
  · rw [hframes', hlocals, Array.size_shrink, Nat.min_eq_left hheight]
    exact hle
  · rw [hscopes]
    exact hopening
  · rw [hscopes]
    rfl
  · intro hd
    rw [hscopes] at hd
    have hd : s.scopes.dirtyStack.back?.getD false = true := hd
    rw [back?_of_stack hmarks] at hd
    exact hrequired.trans (hlayer.marked hd)

theorem closeScope_ready (h : Ready C s pt) (hx : closeScope loc C.env s = .ok v s') :
    ∃ pt', Ready C s' pt' ∧ pt'.KnowsAll C.rules (known v) ∧ ∀ x ∈ known v, x.2 = .plain := by
  obtain ⟨pre, seg, roots, start, hcode, hroots, hnest, hflow, hsub⟩ := h.nest
  obtain ⟨opener, body, frame, s₂, hback, hframe, hclose, hsettle⟩ :=
    closeScope_ok (back?_of_stack hroots) rfl hcode hx
  have hheight := h.height
  generalize hcontrol : stack s.scopes.control = control, hframes : stack s.scopes.variableFrames = frames,
    hmarks : stack s.scopes.dirtyStack = marks at hnest hheight
  cases hnest with
  | outermost hc =>
    generalize C.env.kind = kind at hc
    cases hc with
    | main =>
      rw [back?_of_stack_nil hcontrol] at hback
      cases hback
    | user =>
      rw [back?_of_stack hcontrol] at hback
      cases hback
  | @scope control roots frames marks pre before test start mid pt₀ loc' root frame' mark body' hnest hlayer hle =>
    rw [back?_of_stack hcontrol] at hback
    cases hback
    rw [back?_of_stack hframes] at hframe
    cases hframe
    let front := pre ++ before ++ test
    have hfit : Fit C (scopeClosed s frame front) pt₀ := hlayer.fit h.fit hroots front
    have hroot : root.required = required (scopeClosed s frame front) := by
      have hpop : stack (scopeClosed s frame front).scopes.rootScopes = root :: roots := stack_pop hroots
      simp only [required, back?_of_stack hpop, Option.map_some, Option.getD_some]
    have hroom : (roomOutside C s root).Le (roomAt C (scopeClosed s frame front)) :=
      ⟨hroot.symm.trans, Nat.le_refl _, Nat.le_refl _, List.prefix_rfl⟩
    obtain ⟨pt', hlands⟩ := closeBody_lands hfit rfl (hlayer.tests.mono hroom) hlayer.sub hlayer.head
      hlayer.settled hroot hlayer.closes (polled_bodyCode _ _)
      (hlayer.bodyFlows h.fit hflow hsub fun hb => (Bool.or_eq_false_iff.mp hb).1) hclose
    have hready := hlands.ready hnest hlayer hle hheight hcontrol hroots hframes hmarks h.opening
    obtain ⟨pt'', hm, hready'⟩ := hready.settle_ok hsettle
    refine ⟨pt'', hready', fun x hx => ?_, hlands.plain⟩
    have hknown := hlands.value x hx
    rw [hlands.plain x hx] at hknown ⊢
    exact hm.plain hknown

structure Rules.AdmitsBlock (c : Rules) (b : Block) : Prop where
  inside : ∀ id ∈ Argument.namesIn b.args, c.Admits id
  name : c.AdmitsStatement b.id
  counted : c.counted = true → b.id ≠ "while" ∧ b.id ≠ "loop"

theorem Rules.AdmitsBlock.opens {b : Block} (h : c.AdmitsBlock b)
    (hfind : Builtin.find? b.id = some (.opener o, least)) (ho : o = .whileTrue ∨ o = .forever) :
    c.counted = false := by
  obtain ⟨-, -, -, hwhile, hloop⟩ := Builtin.name_unique _ (Builtin.mem_catalog hfind)
  cases hcounted : c.counted with
  | false => rfl
  | true =>
    rcases ho with rfl | rfl
    · exact absurd (hwhile rfl) (h.counted hcounted).1
    · exact absurd (hloop rfl) (h.counted hcounted).2

theorem beginFunction_main (hmain : env.kind = .main) : beginFunction arg loc env s ≠ .ok u s' := by
  intro h
  obtain ⟨e, s₁, hread, hrest⟩ := bind_ok h
  cases hread
  rw [hmain] at hrest
  cases arg <;> exact fail_ok hrest

theorem hat_iff (hmain : env.kind = .main) : hat h least b loc env s = .ok u t ↔ h = .onStart ∧ ∃ argv s₁ s₂ pushed,
      arguments b.args loc 0 env s = .ok argv s₁ ∧ ¬argv.length < least ∧ settle loc env s₁ = .ok () s₂ ∧
      tryScopes (·.pushOpened loc) env s₂ = .ok pushed t := by
  constructor
  · intro hx
    obtain ⟨argv, s₁, hargs, hrest⟩ := bind_ok hx
    obtain ⟨⟨⟩, s₂, hrequire, hstart⟩ := bind_ok hrest
    obtain ⟨hleast, rfl⟩ := requireArguments_ok hrequire
    cases h with
    | defineBlock =>
      obtain ⟨⟨⟩, s₃, hbegin, -⟩ := bind_ok hstart
      exact absurd hbegin (beginFunction_main hmain)
    | onStart =>
      obtain ⟨⟨⟩, s₃, hsettle, hend⟩ := bind_ok hstart
      obtain ⟨pushed, s₄, hpush, hlast⟩ := bind_ok hend
      obtain ⟨-, rfl⟩ := pure_ok hlast
      exact ⟨rfl, argv, s₂, s₃, pushed, hargs, hleast, hsettle, hpush⟩
  · rintro ⟨rfl, argv, s₁, s₂, pushed, hargs, hleast, hsettle, hpush⟩
    have hrequire : requireArguments b.id least argv.length loc = pure () := if_neg hleast
    rw [hat, bind_run hargs, hrequire, pure_bind]
    exact (bind_run hsettle).trans (bind_run hpush)

theorem hat_ready {b : Block} (hready : Ready C s pt) (hmain : C.env.kind = .main) (hloc : loc.path ≠ [])
    (hargs : ∀ id ∈ Argument.namesIn b.args, C.rules.Admits id) (hx : hat h least b loc C.env s = .ok u s') :
    ∃ pt', Ready C s' pt' := by
  obtain ⟨rfl, argv, s₁, s₂, pushed, hargv, -, hsettle, hpush⟩ := (hat_iff hmain).mp hx
  obtain ⟨pt₁, hgo, -⟩ := arguments_emits b.args loc 0 hloc hargs s pt argv s₁ hargv hready.fit nofun
  obtain ⟨pt₂, -, hready'⟩ := (hready.goes hgo).settle_ok hsettle
  cases (tryScopes_run (pushOpened_none hready'.opening)).symm.trans hpush
  exact ⟨pt₂, hready'⟩

theorem block_ready {b : Block} {position : Nat} (h : Ready C s pt)
    (hpos : position = 0 → C.env.kind = .main) (hb : C.rules.AdmitsBlock b)
    (hx : block b index position C.env s = .ok u s') :
    ∃ cells pt', Ready (C.withCells cells) s' pt' ∧ (C.env.kind ≠ .main → cells = C.cells) := by
  have hloc : (⟨index, [position]⟩ : Location).path ≠ [] := by simp
  obtain ⟨resolved, s₁, hresolve, hrest⟩ := bind_ok hx
  obtain ⟨rfl, hstands⟩ := resolve_ok hresolve
  cases resolved with
  | function | parameter => exact plainBlock_ready h hloc hstands hb.inside hb.name hrest
  | builtin kind =>
    cases kind with
    | operation => exact plainBlock_ready h hloc hstands hb.inside hb.name hrest
    | hat =>
      by_cases hzero : position = 0
      · simp only [hzero, ne_eq, not_true_eq_false, if_false] at hrest
        obtain ⟨pt', hready⟩ := hat_ready h (hpos hzero) (by simp) hb.inside hrest
        exact ⟨C.cells, pt', hready, fun _ => rfl⟩
      · simp only [ne_eq, hzero, not_false_eq_true, if_true] at hrest
        exact (fail_ok hrest).elim
    | opener =>
      obtain ⟨pt', hready⟩ := beginScope_ready h hloc hb.inside
        (fun t pt' argv t' hfit _ hk hin => openScope_opens hfit (hb.opens hstands) hk hin) hrest
      exact ⟨C.cells, pt', hready, fun _ => rfl⟩
    | continuation =>
      obtain ⟨handled, s₂, hclose, hopen⟩ := bind_ok hrest
      obtain ⟨pt₁, hready, hknown, hplain⟩ := closeScope_ready h hclose
      have hsettled : pt₁.settle.KnowsAll C.rules (known handled) := fun x hx => by
        have hkx := hknown x hx
        rw [hplain x hx] at hkx ⊢
        exact Point.knows_settle hkx
      obtain ⟨pt', hready'⟩ := beginScope_ready hready hloc hb.inside (fun t pt' argv t' hfit hsub hk hin =>
          openContinuation_opens hfit (hsub.knowsAll hsettled) hk hin) hopen
      exact ⟨C.cells, pt', hready', fun _ => rfl⟩
    | close =>
      obtain ⟨v, s₂, hclose, hlast⟩ := bind_ok hrest
      obtain ⟨-, rfl⟩ := pure_ok hlast
      obtain ⟨pt', hready, -, -⟩ := closeScope_ready h hclose
      exact ⟨C.cells, pt', hready, fun _ => rfl⟩

theorem blocks_ready : ∀ {bs : List Block} {position : Nat} {C : Context} {s s' : LowerState}
    {pt : Point} {u : Unit}, Ready C s pt → (position = 0 → C.env.kind = .main) →
    (∀ b ∈ bs, C.rules.AdmitsBlock b) → blocks index bs position C.env s = .ok u s' →
    ∃ cells pt', Ready (C.withCells cells) s' pt' ∧ (C.env.kind ≠ .main → cells = C.cells)
  | [], _, C, s, s', pt, _, h, _, _, hx => by
    obtain ⟨-, rfl⟩ := pure_ok hx
    exact ⟨C.cells, pt, h, fun _ => rfl⟩
  | b :: bs, position, C, s, s', pt, u, h, hpos, hbs, hx => by
    obtain ⟨⟨⟩, s₁, hblock, hrest⟩ := bind_ok hx
    obtain ⟨cells, pt₁, hready, hcells⟩ := block_ready h hpos (hbs b List.mem_cons_self) hblock
    obtain ⟨cells', pt', hready', hcells'⟩ := blocks_ready hready (fun h => absurd h (Nat.succ_ne_zero position))
      (fun b hb => hbs b (List.mem_cons_of_mem _ hb)) hrest
    exact ⟨cells', pt', hready', fun hkind => (hcells' hkind).trans (hcells hkind)⟩

end Blockwork.Flow
