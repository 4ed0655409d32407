import Blockwork.Proofs.Tracing.Blocks
import Blockwork.Proofs.Trimming.Lowering

/-! # Open scopes
While scopes are open, the code of a function stands in pieces. -/

namespace Blockwork.Tracing

open List (append_nil append_assoc prefix_refl mem_cons_self prefix_append cons)

open Lower Typing Instr RootScope
open Flow hiding known
open Trimming

structure Kept (s t : LowerState) : Prop extends SameTables s t where
  code : t.code = s.code
  next : t.nextReg = s.nextReg

theorem Fits.kept (h : Fits env W F B s) (hs : Kept s t) : Fits env W F B t := by
  have hreached : reached t = reached s := by rw [reached, reached, hs.code]
  exact
    { h with
      toFitted := hs.fitted h.toFitted
      next := hs.next.trans h.next
      accesses := hreached ▸ h.accesses
      values := hreached ▸ h.values
      due := hreached ▸ h.due
      young := hreached ▸ h.young
      youngCells := hreached ▸ h.youngCells }

theorem Extends.kept (h : Fits env W F B s) (hk : Kept s t) (hs : Scopes.Shaped s.scopes t.scopes) :
    Extends env [] [] W F s W F B t :=
  .renamed (h.kept hk) hk.code hk.next hs

/-! ### Pieces of code -/

/-- Code in front of a body and the code that leads up to the body write registers in order; those that the scope
depends on lie below the body. -/
def Rises (a : Reg) (seg before : List Instr) (b : Body) (c : Reg) : Prop :=
  ∃ a', Ascends a seg a' ∧ Ascends a' before c ∧ ∀ x ∈ b.registers, x.1 < c

/-- Code `pre` up to the innermost body, and what is known there. -/
inductive Within (W : World) (F₀ : Facts) (base : List (OpenScope Body)) (cells : Nat) :
    List (OpenScope Body) → List (List Stored) → List Nat → List Instr → Facts → Reg → Prop where
  | outermost : Scoped W 0 F₀ pre F → Ascends F₀.written.length pre a →
      Within W F₀ base cells base [] [pre.length] pre F a
  | scope {control : List (OpenScope Body)} {starts : List Nat}
      {pre seg before : List Instr} {F F₁ F₂ : Facts} {loc : Location} {b : Body} {a c : Reg} :
      Within W F₀ base cells control outs starts pre F a → Scoped W (widthIn pre) F seg F₁ →
      Scoped W (widthIn (pre ++ seg)) F₁ before F₂ → F₁.Le F₂ → (W.main = true → F₂.cells = cells) →
      HasAll W.kinds F₂.written b.registers → Rises a seg before b c →
      Within W F₀ base cells (⟨loc, .body (b.movedTo (pre ++ seg).length)⟩ :: control) (F₂.locals :: outs)
        ((pre ++ seg ++ before).length :: starts) (pre ++ seg ++ before) F₂ c

section Within

variable {control : List (OpenScope Body)}

theorem Within.grows (h : Within W F₀ base cells control outs starts pre F a) (hg : W.Grows n W')
    (hn : widthIn pre ≤ n) : Within W' F₀ base cells control outs starts pre F a := by
  induction h with
  | outermost hpre hascends => exact .outermost (hg.ofCode hpre (by omega)) hascends
  | scope _ hseg hbefore hle hcells hregs hrises ih =>
    simp only [widthIn_append] at hn
    refine .scope (ih (by omega)) (hg.ofCode hseg (by omega)) (hg.ofCode hbefore ?_) hle ?_
      (hregs.mono hg.kinds (List.Subset.refl _)) hrises
    · simp only [widthIn_append]
      omega
    · exact fun hm => hcells (hg.main.symm.trans hm)

theorem Within.written (h : Within W F₀ base cells control outs starts pre F a) : F₀.written ⊆ F.written := by
  induction h with
  | outermost hpre _ => exact hpre.keeps.1
  | scope _ hseg _ hle _ _ _ ih => exact List.Subset.trans ih (List.Subset.trans hseg.keeps.1 hle.written)

theorem Within.depth (h : Within W F₀ base cells control outs starts pre F a) :
    control.length = base.length + outs.length := by
  induction h with
  | outermost _ _ => rfl
  | scope _ _ _ _ _ _ _ ih => simp only [List.length_cons, ih]; omega

theorem Within.recount (h : Within W F₀ base cells control outs starts pre F a) (hcells : outs ≠ [] → cells' = cells) :
    Within W F₀ base cells' control outs starts pre F a := by
  cases h with
  | outermost hpre hascends => exact .outermost hpre hascends
  | scope hout hseg hbefore hle hc hregs hrises =>
    cases hcells (by simp)
    exact .scope hout hseg hbefore hle hc hregs hrises

end Within

/-- A state between two blocks: nothing is half open, and the code so far is well scoped. -/
structure Open (env : LowerEnv) (F₀ : Facts) (base : List (OpenScope Body)) (W : World) (F : Facts)
    (B : Bindings) (s : LowerState) : Prop where
  fits : Fits env W F B s
  opening : s.scopes.opening = none
  params : Params env W.kinds F₀.written
  segment : ∃ pre G seg a, s.code.toList = pre ++ seg ∧ Within W F₀ base s.cells (stack s.scopes.control)
    (outerLocals B.blocks B.own) ((stack s.scopes.rootScopes).map start) pre G a ∧
    Scoped W (widthIn pre) G seg F ∧ Ascends a seg s.nextReg

structure Advances (env : LowerEnv) (F₀ : Facts) (base : List (OpenScope Body)) (ms : List Mark) (W : World)
    (B : Bindings) (W' : World) (F' : Facts) (t : LowerState) : Prop where
  state : Open env F₀ base W' F' (B.afterAll ms) t
  accesses : W'.accesses = W.accesses ++ B.accesses ms
  values : W'.values = W.values ++ valuesOf ms
  tells : B.Tells ms

section Steps

theorem Advances.trans (h : Advances env F₀ base ms W B W' F' t)
    (h' : Advances env F₀ base ms' W' (B.afterAll ms) W'' F'' u) :
    Advances env F₀ base (ms ++ ms') W B W'' F'' u := by
  refine ⟨?_, ?_, ?_, h.tells.append h'.tells⟩
  · rw [Bindings.afterAll_append]
    exact h'.state
  · rw [h'.accesses, h.accesses, Bindings.accesses_append, append_assoc]
  · rw [h'.values, h.values, valuesOf_append, append_assoc]

theorem Open.level (h : Open env F₀ base W F B s) (hbase : env.kind = .main → base = []) :
    env.kind = .main → s.scopes.control.size = s.scopes.variableFrames.size := by
  intro hkind
  obtain ⟨pre, G, seg, a, -, hwithin, -, -⟩ := h.segment
  have hdepth := hwithin.depth
  rw [hbase hkind, List.length_nil, Nat.zero_add] at hdepth
  have houter : ∀ bss own, (outerLocals bss own).length = bss.length := by
    intro bss own
    induction bss with
    | nil => rfl
    | cons bs rest ih => simp [outerLocals, ih]
  rw [houter] at hdepth
  rw [h.fits.length_blocks, ← hdepth]
  simp [stack]

theorem Open.step (h : Open env F₀ base W F B s) (hx : Extends env as vs W F s W' F' B' t) (hB : Nests B B') :
    Open env F₀ base W' F' B' t := by
  obtain ⟨pre, G, seg, a, hcode, hwithin, hseg, hascends⟩ := h.segment
  obtain ⟨is, his, hscoped, hmore⟩ := hx.code
  have hreached : reached s = widthIn pre + widthIn seg := by
    rw [reached, hcode, widthIn_append]
  refine ⟨hx.fits, hx.shaped.opening.trans h.opening, h.params.mono hx.grows.kinds (List.Subset.refl _),
    pre, G, seg ++ is, a, ?_, ?_, ?_, hascends.append hmore⟩
  · rw [his, hcode, append_assoc]
  · rw [hx.shaped.control, stack_starts hx.shaped, hB.outer]
    refine (hwithin.grows hx.grows (by omega)).recount fun hne => ?_
    have hlow : B.isTop = false := by
      rw [isTop_eq, List.isEmpty_eq_false_iff.mpr hne, Bool.and_false]
    rw [hx.fits.count, hx.fits.cells, hB.globals hlow, ← h.fits.cells, ← h.fits.count]
  · refine (hx.grows.ofCode hseg (by omega)).append ?_
    rw [← hreached]
    exact hscoped

theorem Open.marked (h : Open env F₀ base W F B s) (hx : Marked env ms W F B s W' F' t)
    (hms : ∀ m ∈ ms, m.IsNote) : Advances env F₀ base ms W B W' F' t :=
  ⟨h.step hx.extends_ (afterAll_nests hx.tells hms), hx.extends_.accesses, hx.extends_.values, hx.tells⟩

theorem Advances.step (h : Advances env F₀ base ms W B W' F' t)
    (hx : Extends env [] [] W' F' t W'' F'' (B.afterAll ms) u) : Advances env F₀ base ms W B W'' F'' u := by
  refine ⟨h.state.step hx (.refl _), ?_, ?_, h.tells⟩
  · rw [hx.accesses, h.accesses, append_nil]
  · rw [hx.values, h.values, append_nil]

end Steps

theorem Fits.opened (h : Fits env W F B s) : Fits env W F (B.after .opened) (framePushed s) := by
  have hlength : s.scopes.locals.size = B.locals.length := by
    rw [← h.locals.length_eq]
    simp [stack]
  exact { h with
    frames := by
      show stack (s.scopes.variableFrames.push _) = _
      rw [stack_push, h.frames, hlength, h.used, h.facts]
      rfl }

theorem Open.inner {body : Body} (h : Open env F₀ base W F B s)
    (hx : Extends env as vs W F (framePushed s) W' F' B' t) (hstays : Stays (B.after .opened) B')
    (hregs : HasAll W'.kinds F'.written body.registers) (loc : Location) :
    Open env F₀ base W' F' B' (scopePushed (bodyOpened t (body.movedTo s.code.size)) loc
      (.body (body.movedTo s.code.size))) := by
  obtain ⟨pre, G, seg, a, hcode, hwithin, hseg, hascends⟩ := h.segment
  obtain ⟨before, hbefore, hscoped, hmore⟩ := hx.code
  have hreached : reached s = widthIn (pre ++ seg) := by rw [reached, hcode]
  have hend : t.code.toList = pre ++ seg ++ before := by
    rw [hbefore, ← hcode]
    rfl
  have hlocals : F'.locals = F.locals := by
    rw [hx.fits.facts, hstays.locals, h.fits.facts]
    rfl
  have hcount : t.cells = s.cells := by
    have hglobals := hstays.globals (by simp [Bindings.after, Bindings.isTop])
    rw [hx.fits.count, hx.fits.cells, hglobals, h.fits.count, h.fits.cells]
    rfl
  have hle : F.Le F' := ⟨hscoped.keeps.1, hlocals ▸ prefix_refl _, hscoped.keeps.2⟩
  refine ⟨hx.fits.kept ⟨⟨rfl, rfl, rfl, rfl, rfl, rfl⟩, rfl, rfl⟩, rfl,
    h.params.mono hx.grows.kinds (List.Subset.refl _), pre ++ seg ++ before, F', [], t.nextReg, ?_, ?_, .nil,
    .refl _⟩
  · rw [append_nil]
    exact hend
  have hcontrol : stack (t.scopes.control.push ⟨loc, .body (body.movedTo s.code.size)⟩) =
      ⟨loc, .body (body.movedTo (pre ++ seg).length)⟩ :: stack s.scopes.control := by
    rw [stack_push, hx.shaped.control, ← hcode, Array.length_toList]
    rfl
  have hroots : (stack (t.scopes.rootScopes.push ⟨t.code.size, false⟩)).map start =
      (pre ++ seg ++ before).length :: (stack s.scopes.rootScopes).map start := by
    rw [stack_push, List.map_cons, stack_starts hx.shaped, ← hend, Array.length_toList]
    rfl
  have houter : outerLocals B'.blocks B'.own = F'.locals :: outerLocals B.blocks B.own := by
    rw [hstays.outer, hlocals, h.fits.facts]
    rfl
  show Within W' F₀ base t.cells (stack (t.scopes.control.push _)) _
    ((stack (t.scopes.rootScopes.push _)).map start) _ F' _
  rw [hcontrol, hroots, houter, hcount]
  refine .scope (hwithin.grows hx.grows ?_) (hx.grows.ofCode hseg ?_) ?_ hle (fun hm => ?_) hregs
    ⟨_, hascends, hmore, fun y hy => ?_⟩
  · show widthIn pre ≤ reached s
    rw [hreached, widthIn_append]
    exact Nat.le_add_right _ _
  · exact Nat.le_of_eq ((widthIn_append pre seg).symm.trans hreached.symm)
  · rw [← hreached]
    exact hscoped
  · rw [hx.fits.declared hm, hcount]
  · rw [hx.fits.next]
    exact (List.getElem?_eq_some_iff.mp (hregs y hy).1).1

theorem beginScope_advances (h : Open env F₀ base W F B s)
    (hloc : loc.path ≠ []) (hk : HasAll W.kinds F.written known)
    (henter : ∀ argv, Opening (settingOf env) (known ++ argv.flatMap contents) fun start => enter start argv)
    (hrun : beginScope least b loc enter env s = .ok x t) :
    ∃ W' F', Advances env F₀ base (marksOfOpener b loc env s) W B W' F' t := by
  obtain ⟨hframes, argv, s₂, s₄, s₅, f, hargs, -, hin, hsettle, hf, -, rfl⟩ := beginScope_iff.mp hrun
  obtain ⟨W₁, F₁, hmarked, hhas, hquiet⟩ := arguments_marked b.args hloc h.fits.opened hargs
  have hsaved := Extends.kept hmarked.extends_.fits (t := { s₂ with scopes := s₂.scopes.saveDirty })
    ⟨⟨rfl, rfl, rfl, rfl, rfl, rfl⟩, rfl, rfl⟩ ⟨rfl, rfl, rfl, rfl, rfl⟩
  -- the condition and the body
  obtain ⟨o, body, rfl, -, hadds, -⟩ := henter argv env _ _ _ s₄ rfl hin
  have hknown : HasAll W₁.kinds F₁.written (known ++ argv.flatMap contents) := fun y hy =>
    (List.mem_append.mp hy).elim (hmarked.extends_.hasAll hk y) (hhas y)
  obtain ⟨W₂, F₂, hext, hregs⟩ := hsaved.fits.output hadds hknown
  have hclean : (bodyOpened (o.onto { s₂ with scopes := s₂.scopes.saveDirty })
      (body.movedTo s.code.size)).scopes.dirty = false := by
    show (o.onto { s₂ with scopes := s₂.scopes.saveDirty }).scopes.dirty = false
    rw [hadds.scopes_onto]
    rfl
  rw [settle_clean hclean] at hsettle
  cases hsettle
  cases hf
  have hall := (hmarked.extends_.trans hsaved).trans hext
  have hinner := h.inner hall (afterAll_stays hmarked.tells hquiet) hregs loc
  refine ⟨W₂, F₂, ?_⟩
  rw [marksOfOpener, seen_ok (tryScopes_run (pushVariableFrame_run hframes))]
  refine ⟨hinner, ?_, ?_, fun n hn => Mark.noConfusion hn, hmarked.tells⟩
  · rw [hall.accesses, append_nil, append_nil]
    rfl
  · rw [hall.values, append_nil, append_nil]
    rfl

/-! ### Closing a scope -/

theorem widthIn_closedCode (b : Body) (test code : List Instr) (d : Reg) :
    widthIn test + widthIn code ≤ widthIn (closedCode b test code d) := by
  cases b with
  | branch run handled => simp [closedCode, widthIn, width]
  | whileLoop start cond flush =>
    cases flush with
    | false => simp [closedCode, widthIn, width]
    | true =>
      simp only [closedCode, widthIn, width, if_true, widthIn_append]
      omega
  | countLoop | foreverLoop => simp [closedCode, widthIn, width]
  | plain => simp [closedCode]

theorem Scoped.bodyCode (h : Scoped W k F code F') (framed : Bool) : Scoped W k F (Flow.bodyCode framed code) F' := by
  cases framed with
  | true => exact .rooted h .nil
  | false => exact h

theorem ascends_bodyCode (h : Ascends a code c) (framed : Bool) : Ascends a (Flow.bodyCode framed code) c := by
  cases framed with
  | true => exact .rooted h (.refl c)
  | false => exact h

theorem Rises.closed (h : Rises a seg before b c) (hcode : Ascends c code d) :
    Ascends a (seg ++ closedCode b before code d) (d + (closedKinds b).length) := by
  obtain ⟨a', hseg, hbefore, hregs⟩ := h
  have hfront := hseg.append hbefore
  cases b with
  | branch run handled =>
    rw [closedCode, ← append_assoc]
    exact hfront.append (.ifThen (Nat.le_refl c) (hregs _ mem_cons_self) hcode (.refl d))
  | whileLoop start cond flush =>
    refine hseg.append ?_
    have hbody : Ascends c (if flush then code ++ [.entry d .flush []] else code) (d + 1) := by
      cases flush with
      | true => exact hcode.append (.write rfl)
      | false => simpa using hcode.append (.nil (Nat.le_succ d))
    exact .whileLoop hbefore hbody (.write rfl)
  | countLoop count =>
    rw [closedCode, ← append_assoc]
    exact hfront.append (.countLoop (Nat.le_refl c) (hregs _ mem_cons_self) hcode (Nat.le_refl d) (.refl _))
  | foreverLoop =>
    rw [closedCode, ← append_assoc]
    exact hfront.append (.foreverLoop hcode (.write rfl))
  | plain =>
    rw [closedCode, ← append_assoc]
    exact hfront.append hcode

structure Silent (W : World) (n : Nat) : Prop where
  accesses : ∀ e ∈ W.accesses, e.1 < n
  values : ∀ e ∈ W.values, e.1 < n

theorem Silent.line (h : Silent W n) (hk : n ≤ k) (hline : Line W.ctx W.kinds F.written is D) :
    Scoped W k F is { F with written := D } := by
  refine .of_line hline (fun e he hek => ?_) rfl (fun e he => ?_) fun e he => ?_
  · have hlt := h.values e he
    omega
  · exact Nat.lt_of_lt_of_le (h.accesses e he) hk
  · exact Nat.le_of_lt (Nat.lt_of_lt_of_le (h.values e he) hk)

theorem Scoped.closed (hkinds : W.kinds = T ++ closedKinds b) (hd : d = T.length) (htest : Scoped W k F₁ test F₂)
    (hle : F₁.Le F₂) (hregs : HasAll W.kinds F₂.written b.registers) (hcode : Scoped W (k + widthIn test) F₂ code F₃)
    (hle' : F₂.Le F₃) (hlocals : F₃.locals = F₂.locals) (hcells : F₃.cells = F₂.cells) (hsilent : Silent W n)
    (hn : n ≤ k + widthIn test + widthIn code) :
    ∃ F₄, Scoped W k F₁ (closedCode b test code d) F₄ ∧ F₂.written ⊆ F₄.written ∧ F₄.locals = F₂.locals ∧
      F₄.cells = F₂.cells ∧ HasAll W.kinds F₄.written (contents (closedValue b d)) := by
  have hlast : ∀ (i : Instr), Leaf W.ctx W.kinds F₂.written i → i.dst? = some d →
      Scoped W (k + widthIn test + widthIn code) F₂ [i] { F₂ with written := d :: F₂.written } := by
    intro i hi hdst
    refine hsilent.line hn (.cons hi ?_)
    rw [hdst]
    exact .nil
  have hbool : ∀ {e : Reg} {D : List Reg}, W.kinds[e]? = some (.value .bool) → e ∈ D →
      HasAll W.kinds D (contents (.reg .bool e)) := by
    intro e D he hD y hy
    obtain rfl := List.mem_singleton.mp hy
    exact ⟨he, hD⟩
  cases b with
  | branch run handled =>
    have hrun := hregs _ mem_cons_self
    have hhandled := hregs (handled, .value .bool) (List.mem_cons_of_mem _ mem_cons_self)
    refine ⟨F₂, htest.append (.ifThen hrun hcode hle' .nil), List.Subset.refl _, rfl, rfl, ?_⟩
    exact hbool hhandled.1 hhandled.2
  | whileLoop start cond flush =>
    have hcond := hregs _ mem_cons_self
    have hdrop : W.kinds[d]? = some .void := by simp [hkinds, closedKinds, hd]
    have htrue : W.kinds[d + 1]? = some (.value .bool) := by simp [hkinds, closedKinds, hd]
    obtain ⟨F₅, hbody, hle₅⟩ : ∃ F₅, Scoped W (k + widthIn test) F₂
        (if flush then code ++ [.entry d .flush []] else code) F₅ ∧ F₂.Le F₅ := by
      cases flush with
      | false => exact ⟨F₃, hcode, hle'⟩
      | true =>
        refine ⟨{ F₃ with written := d :: F₃.written }, hcode.append ?_, hle'.trans ⟨?_, ?_, ?_⟩⟩
        · exact hsilent.line hn (.cons (.entry .nil rfl rfl hdrop) .nil)
        · exact List.subset_cons_self _ _
        · exact prefix_refl _
        · exact Nat.le_refl _
    refine ⟨{ F₂ with written := (d + 1) :: F₂.written }, .whileLoop htest hle hcond hbody hle₅ ?_,
      List.subset_cons_self _ _, rfl, rfl, hbool htrue mem_cons_self⟩
    refine hsilent.line ?_ (.cons (.constant htrue) .nil)
    cases flush with
    | false => exact hn
    | true =>
      simp only [if_true, widthIn_append]
      omega
  | countLoop count =>
    have hcount := hregs _ mem_cons_self
    have hresult : W.kinds[d]? = some (.value .bool) := by simp [hkinds, closedKinds, hd]
    refine ⟨{ F₂ with written := d :: F₂.written }, htest.append (.countLoop hcount hcode hle' ?_),
      List.subset_cons_self _ _, rfl, rfl, hbool hresult mem_cons_self⟩
    exact hlast _ (.unary hcount rfl hresult) rfl
  | foreverLoop =>
    have hresult : W.kinds[d]? = some (.value .bool) := by simp [hkinds, closedKinds, hd]
    refine ⟨{ F₂ with written := d :: F₂.written }, htest.append (.foreverLoop hcode hle' ?_),
      List.subset_cons_self _ _, rfl, rfl, hbool hresult mem_cons_self⟩
    exact hlast _ (.constant hresult) rfl
  | plain => exact ⟨F₃, htest.append hcode, hle'.written, hlocals, hcells, .nil⟩

theorem stack_shrink (a : Array α) (n : Nat) : stack (a.shrink n) = (stack a).drop (a.size - n) := by
  rw [stack, stack, Array.toList_shrink, List.drop_reverse, Array.length_toList]
  by_cases hn : n ≤ a.size
  · have hsub : a.size - (a.size - n) = n := by omega
    rw [hsub]
  · have hle : a.toList.length ≤ n := by
      rw [Array.length_toList]
      omega
    have hsub : a.size - (a.size - n) = a.toList.length := by
      rw [Array.length_toList]
      omega
    rw [hsub, List.take_of_length_le hle, List.take_length]

theorem Scoped.cells_eq (h : Scoped W k F is F') (hm : W.main = false) : F'.cells = F.cells := by
  induction h with
  | nil => rfl
  | leaf _ hleads _ ih =>
    refine ih.trans ?_
    cases hleads with
    | declaresCell _ hmain _ _ => cases hm.symm.trans hmain
    | _ => rfl
  | rooted _ _ ihbody ih => exact ih.trans ihbody
  | ifThen _ _ _ _ _ ih | countLoop _ _ _ _ _ ih => exact ih
  | whileLoop _ _ _ _ _ _ ihtest _ ih => exact ih.trans ihtest
  | foreverLoop _ _ _ _ ih => exact ih

def closedOver (B : Bindings) : List Stored :=
  (B.blocks.head?.getD []).filterMap Binding.stored?

def closedWorld (W : World) (B : Bindings) (b : Body) (k : Nat) : World :=
  { W with
    kinds := W.kinds ++ closedKinds b
    accesses := W.accesses ++ [(k, .closes (closedOver B))] }

theorem closedWorld_grows (W : World) (B : Bindings) (b : Body) (k : Nat) : W.Grows k (closedWorld W B b k) :=
  grows_touching (prefix_append _ _) (prefix_refl _) (Nat.le_refl _)

theorem Fits.closed {inner : List Binding} (h : Fits env W F B s) (hblocks : B.blocks = inner :: outer)
    (hframe : s.scopes.variableFrames.back? = some frame) (hscopes : t.scopes = (scopeClosed s frame []).scopes)
    (hglobals : t.globals = s.globals) (hcells : t.cells = s.cells)
    (hnext : t.nextReg = (W.kinds ++ closedKinds b).length) (hreached : reached s < reached t)
    (hlocals : F'.locals = storedIn (outer.flatten ++ B.own)) (hdeclared : W.main = true → F'.cells = s.cells)
    (hparams : Params env (W.kinds ++ closedKinds b) F'.written) :
    Fits env (closedWorld W B b (reached s)) F' (B.after (.closed (reached s))) t := by
  have hframes := h.frames
  rw [hblocks, framesOf] at hframes
  obtain rfl := Option.some.inj ((back?_of_stack hframes).symm.trans hframe)
  have hall : B.locals = inner ++ (outer.flatten ++ B.own) := by
    rw [Bindings.locals, hblocks, List.flatten_cons, append_assoc]
  have hsize : s.scopes.locals.size = inner.length + (outer.flatten ++ B.own).length := by
    have hlength := h.locals.length_eq
    rw [hall, List.length_append] at hlength
    simpa [stack] using hlength
  have hafter : (B.after (.closed (reached s))).locals = outer.flatten ++ B.own := by
    rw [Bindings.after, Bindings.locals, hblocks]
    rfl
  have hfewer : storedIn (outer.flatten ++ B.own) <+: F.locals := by
    rw [h.facts, hall, storedIn_append inner]
    exact prefix_append _ _
  refine h.touching (prefix_append _ _) hnext rfl ?_ (fun x hx => .inl (hfewer.subset (hlocals ▸ hx))) (fun x => .inl)
    hreached hparams
  exact
    { h.toFitted with
      locals := by
        rw [hafter, hscopes]
        show Matches .slot (stack (s.scopes.locals.shrink _)) _
        have hdrop := h.locals.drop inner.length
        rw [hall, List.drop_left] at hdrop
        rw [stack_shrink, hsize, Nat.add_sub_cancel]
        exact hdrop
      facts := by rw [hlocals, hafter]
      frames := by
        rw [hscopes, Bindings.after, hblocks]
        exact stack_pop hframes
      used := by
        rw [hscopes, hlocals]
        rfl
      slots := by
        rw [hscopes]
        exact h.slots
      room := by
        rw [hscopes]
        have hroom := h.room
        rw [h.used] at hroom
        exact Nat.le_trans hfewer.length_le hroom
      size := by
        rw [hscopes]
        exact h.size
      globals := hglobals ▸ h.globals
      count := hcells.trans h.count
      declared := fun hm => (hdeclared hm).trans hcells.symm
      nodup := by
        rw [hlocals]
        exact h.nodup.sublist hfewer.sublist }

theorem Fits.polled {inner : List Binding} (h : Fits env W F B s) (hblocks : B.blocks = inner :: outer)
    (hcode : s.code.toList = pre ++ seg) (hseg : Scoped W (widthIn pre) G seg F)
    (hlocals : storedIn (outer.flatten ++ B.own) = G.locals) :
    Scoped (closedWorld W B b (reached s)) (widthIn pre) G (seg ++ [.poll]) { F with locals := G.locals } := by
  have hreached : reached s = widthIn pre + widthIn seg := by rw [reached, hcode, widthIn_append]
  have hgrows := closedWorld_grows W B b (reached s)
  have hsplit : F.locals = G.locals ++ storedIn inner := by
    rw [h.facts, Bindings.locals, hblocks, List.flatten_cons, append_assoc, storedIn_append, hlocals]
  have hgone : ∀ x ∈ G.locals, x ∉ closedOver B := by
    intro x hx hxs
    have hnodup := h.nodup
    rw [hsplit, List.nodup_append] at hnodup
    refine hnodup.2.2 x hx x ?_ rfl
    rw [closedOver, hblocks] at hxs
    exact List.mem_reverse.mpr hxs
  refine (hgrows.ofCode hseg (by omega)).append ?_
  rw [← hreached]
  exact .leaf h.due (.closes (lookup_last h.accesses.below) hsplit hgone) .nil

theorem widthIn_bodyCode (framed : Bool) (is : List Instr) : widthIn (bodyCode framed is) = widthIn is := by
  cases framed with
  | true => exact Nat.add_zero _
  | false => rfl

theorem closedWorld_silent (h : Fits env W F B s) (b : Body) :
    Silent (closedWorld W B b (reached s)) (reached s + 1) := by
  refine ⟨fun e he => ?_, fun e he => Nat.lt_succ_of_le (h.values e he).1⟩
  rcases List.mem_append.mp he with he | he
  · exact Nat.lt_succ_of_lt (h.accesses.below e he)
  · obtain rfl := List.mem_singleton.mp he
    exact Nat.lt_succ_self _

theorem Open.closed {control : List (OpenScope Body)} {inner : List Binding} (h : Open env F₀ base W F B s)
    (hblocks : B.blocks = inner :: outer) (hframe : s.scopes.variableFrames.back? = some frame)
    (hout : Within W F₀ base s.cells control (outerLocals outer B.own) starts pre F₁ a)
    (hseg : Scoped W (widthIn pre) F₁ seg F₂) (hbefore : Scoped W (widthIn (pre ++ seg)) F₂ before G) (hle : F₂.Le G)
    (hcells : W.main = true → G.cells = s.cells) (hregs : HasAll W.kinds G.written b.registers)
    (hlocals : storedIn (outer.flatten ++ B.own) = G.locals) (hcontrol : stack s.scopes.control.pop = control)
    (hstarts : (stack s.scopes.rootScopes.pop).map start = starts)
    (hcode : s.code.toList = pre ++ seg ++ before ++ inside)
    (hinside : Scoped W (widthIn (pre ++ seg ++ before)) G inside F) (hrises : Rises a seg before b c)
    (hascends : Ascends c inside s.nextReg) (framed : Bool) :
    ∃ F', Open env F₀ base (closedWorld W B b (reached s)) F' (B.after (.closed (reached s)))
        { scopeClosed s frame (pre ++ seg ++ before) with
          code := (pre ++ seg).toArray ++ closedCode b before (bodyCode framed (inside ++ [.poll])) s.nextReg
          nextReg := s.nextReg + (closedKinds b).length } ∧
      HasAll (closedWorld W B b (reached s)).kinds F'.written (contents (closedValue b s.nextReg)) := by
  have hgrows := closedWorld_grows W B b (reached s)
  have hreached : reached s = widthIn (pre ++ seg) + widthIn before + widthIn inside := by
    rw [reached, hcode, widthIn_append, widthIn_append (pre ++ seg)]
  have hwidth : widthIn (bodyCode framed (inside ++ [.poll])) = widthIn inside + 1 := by
    rw [widthIn_bodyCode, widthIn_append]
    rfl
  -- the body comes back to what was known at its start
  have hsame : F.cells = G.cells := by
    cases hm : W.main with
    | true => rw [h.fits.declared hm, hcells hm]
    | false => exact hinside.cells_eq hm
  have hbody := (h.fits.polled (b := b) hblocks hcode hinside hlocals).bodyCode framed
  rw [widthIn_append (pre ++ seg)] at hbody
  obtain ⟨F', hclosed, hwritten, hlocals', hcells', hhas⟩ := Scoped.closed (d := s.nextReg) rfl h.fits.next
    (hgrows.ofCode hbefore (by omega)) hle (hregs.mono hgrows.kinds (List.Subset.refl _)) hbody
    ⟨hinside.keeps.1, prefix_refl _, hinside.keeps.2⟩ rfl hsame (closedWorld_silent h.fits b) (by omega)
  have hend : ((pre ++ seg).toArray ++ closedCode b before (bodyCode framed (inside ++ [.poll]))
      s.nextReg).toList = pre ++ (seg ++ closedCode b before (bodyCode framed (inside ++ [.poll])) s.nextReg) := by
    simp
  refine ⟨F', ⟨?_, h.opening, h.params.mono (prefix_append _ _) (List.Subset.refl _), pre, F₁, _, a, hend,
    ?_, ?_, ?_⟩, hhas⟩
  · refine h.fits.closed hblocks hframe rfl rfl rfl ?_ ?_
      (hlocals'.trans hlocals.symm) (fun hm => hcells'.trans (hcells hm)) ?_
    · rw [List.length_append, ← h.fits.next]
    · have hwide := widthIn_closedCode b before (bodyCode framed (inside ++ [.poll])) s.nextReg
      show reached s < widthIn ((pre ++ seg).toArray ++ closedCode b before _ s.nextReg).toList
      rw [hend, ← append_assoc, widthIn_append]
      omega
    · exact h.params.mono (prefix_append _ _) (List.Subset.trans hout.written
        (List.Subset.trans hseg.keeps.1 (List.Subset.trans hle.written hwritten)))
  · show Within _ F₀ base s.cells (stack s.scopes.control.pop) _
      ((stack s.scopes.rootScopes.pop).map start) pre F₁ a
    rw [hcontrol, hstarts, Bindings.after, hblocks]
    refine hout.grows hgrows ?_
    rw [hreached, widthIn_append]
    omega
  · rw [widthIn_append] at hclosed hreached
    exact (hgrows.ofCode hseg (by omega)).append hclosed
  · exact hrises.closed (ascends_bodyCode (hascends.append (.silent rfl rfl)) framed)

theorem closeScope_advances (h : Open env F₀ base W F B s) (hbase : ∀ o ∈ base, o.frame = .function)
    (hrun : closeScope loc env s = .ok v t) : ∃ W' F', Advances env F₀ base [.closed (reached s)] W B W' F' t ∧
      HasAll W'.kinds F'.written (contents v) := by
  obtain ⟨pre, G, inside, a, hcode, hwithin, hinside, hascends⟩ := h.segment
  generalize hcontrol : stack s.scopes.control = control at hwithin
  generalize houts : outerLocals B.blocks B.own = outs at hwithin
  generalize hstarts : (stack s.scopes.rootScopes).map start = starts at hwithin
  obtain ⟨root, roots, hroots, hstart, hrest⟩ : ∃ root roots, stack s.scopes.rootScopes = root :: roots ∧
      root.start = pre.length ∧ starts = pre.length :: roots.map start := by
    obtain ⟨rest, rfl⟩ : ∃ rest, starts = pre.length :: rest := by
      cases hwithin with
      | outermost | scope => exact ⟨_, rfl⟩
    obtain ⟨root, roots, hroots, hstart, hrest⟩ := List.map_eq_cons_iff.mp hstarts
    exact ⟨root, roots, hroots, hstart, by rw [hrest]⟩
  obtain ⟨opener, body, frame, s₂, hback, hframe, hclose, hsettle⟩ :=
    closeScope_ok (back?_of_stack hroots) hstart hcode hrun
  cases hwithin with
  | outermost _ _ =>
    have hmem : (⟨opener, .body body⟩ : OpenScope Body) ∈ base := by
      rw [← hcontrol, stack, List.mem_reverse]
      exact Array.mem_toList_iff.mpr (Array.mem_of_back? hback)
    cases hbase _ hmem
  | @scope control outs starts pre seg before F₁ F₂ G loc' b a c hout hseg hbefore hle hcells hregs hrises =>
    rw [back?_of_stack hcontrol] at hback
    cases hback
    obtain ⟨inner, outer, hblocks⟩ : ∃ inner outer, B.blocks = inner :: outer := by
      cases hB : B.blocks with
      | nil =>
        rw [hB] at houts
        cases houts
      | cons inner outer => exact ⟨inner, outer, rfl⟩
    rw [hblocks, outerLocals] at houts
    obtain ⟨hlocals, rfl⟩ := cons.inj houts
    have hpopped : (stack s.scopes.rootScopes.pop).map start = starts := by
      rw [stack_pop hroots]
      exact (cons.inj hrest).2.symm
    obtain ⟨F₄, hopen, hhas⟩ := h.closed hblocks hframe hout hseg hbefore hle hcells hregs hlocals
      (stack_pop hcontrol) hpopped hcode hinside hrises hascends (root.required || env.keepScopes)
    have hbody := closeBody_run (c := scopeClosed s frame (pre ++ seg ++ before)) rfl b
      (bodyCode (root.required || env.keepScopes) (inside ++ [.poll])) env
    cases hbody.symm.trans hclose
    obtain ⟨W', F', hext⟩ := settle_extends hopen.fits hsettle
    have hclosed : Advances env F₀ base [.closed (reached s)] W B _ F₄ _ :=
      ⟨hopen, rfl, (append_nil _).symm, fun n hn => Mark.noConfusion hn, trivial⟩
    exact ⟨W', F', hclosed.step hext, hext.hasAll hhas⟩

end Blockwork.Tracing
