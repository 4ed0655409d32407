import Blockwork.Proofs.Lowering.Programs
import Blockwork.Proofs.Trimming.Mirror

/-! # Compiling with and without idle root frames

Scopes, chains and whole programs: the code that is compiled as written is the trimmed code of the
lowering that keeps every root frame, and that code drops its temporaries. -/

namespace Blockwork.Trimming

open Lower Instr Compile Scopes
open Flow
open Typing

variable {b : Block} {id : String} {p : Program} {keep : Bool} {K : Outside keep}

/-- The code of the innermost root scope drops its temporaries, up to the statement at hand. -/
def Swept (K : Outside keep) (s : LowerState) : Prop :=
  ∃ seg, s.code.toList = K.pre ++ seg ∧ Tidy true .clean seg (.of s.scopes.dirty)

theorem Swept.lays (h : Swept K s) (hx : Lays true true x) (hrun : x env s = .ok a t) : Swept K t := by
  obtain ⟨seg, hcode, htidy⟩ := h
  obtain ⟨is, hcode', htidy', -⟩ := hx.laid hrun
  exact ⟨seg ++ is, by rw [hcode', hcode, List.append_assoc], htidy.append (htidy' true fun _ => rfl)⟩

/-- Both lowerings stand between two statements. -/
def Beside (keep : Bool) (s' s : LowerState) : Prop :=
  ∃ K : Outside keep, Mirror K [] s' s ∧ Swept K s' ∧ s'.scopes.dirty = false

def Keeps {α : Type} (env : LowerEnv) (x : Lower α) : Prop :=
  ∀ s' s a t, Beside env.keepScopes s' s → x env s = .ok a t →
    ∃ t', x (keeping env true) s' = .ok a t' ∧ Beside env.keepScopes t' t

theorem Keeps.of_lays (h : Lays true true x)
    (hclean : ∀ env s a t, s.scopes.dirty = false → x env s = .ok a t → t.scopes.dirty = false) : Keeps env x := by
  rintro s' s a t ⟨K, hs, hswept, hdirty⟩ hx
  obtain ⟨t', ht', ht⟩ := Mirrors.of_lays h K [] s' s a t hs hx
  exact ⟨t', ht', K, ht, hswept.lays h ht', hclean _ s' a t' hdirty ht'⟩

theorem Keeps.pure (a : α) : Keeps env (pure a) :=
  .of_lays (.pure a) fun _ _ _ _ hd hx => (pure_ok hx).2 ▸ hd

theorem Keeps.bind (hx : Keeps env x) (hf : ∀ a, Keeps env (f a)) : Keeps env (x >>= f) := by
  intro s' s b t h hb
  obtain ⟨a, s₁, hxa, hfa⟩ := bind_ok hb
  obtain ⟨s₁', hxa', h₁⟩ := hx s' s a s₁ h hxa
  rw [bind_run hxa']
  exact hf a s₁' s₁ b t h₁ hfa

theorem Mirror.here (h : Mirror K [] s' s) (hswept : Swept K s') (hdirty : s'.scopes.dirty = false) :
    ∃ seg, Segment K s' s seg ∧ Mirror K seg s' s ∧ Tidy true .clean seg .clean := by
  obtain ⟨seg, hseg⟩ := h.segment
  obtain ⟨is, hcode, htidy⟩ := hswept
  obtain rfl := List.append_cancel_left (hcode.symm.trans hseg.kept)
  refine ⟨is, hseg, { h with segment := ⟨[], ?_⟩ }, by rwa [hdirty] at htidy⟩
  rw [List.append_nil]
  exact hseg

theorem Segment.sizes (h : Segment K s' s seg) :
    s'.code.size = (K.pre ++ seg).length ∧ s.code.size = (slim keep (K.pre ++ seg)).length :=
  ⟨congrArg List.length h.kept, congrArg List.length h.trimmed⟩

/-- What is set aside around the body of a new scope: the code before its statement, and the condition. -/
def Outside.inner {b : Body} (K : Outside keep) (h : Headed before test loc b mark) : Outside keep where
  pre := K.pre ++ before ++ test
  kept := ⟨loc, .body (b.movedTo (K.pre ++ before).length)⟩ :: K.kept
  trimmed := ⟨loc, .body (b.movedTo (slim keep (K.pre ++ before)).length)⟩ :: K.trimmed
  rootsKept := ⟨K.pre.length, usesFrameIn (before ++ test)⟩ :: K.rootsKept
  rootsTrimmed := ⟨(slim keep K.pre).length, usesFrameIn (before ++ test)⟩ :: K.rootsTrimmed
  marks := mark :: K.marks
  nested := .scope K.nested h

theorem Output.onto_quiet {o : Output} (hr : o.required = false) (hd : o.dirty = .none) (s : LowerState) :
    o.onto s = { s with code := s.code ++ o.code, nextReg := o.next } := by
  simp only [Output.onto, hr, hd]
  rfl

def entered (s : LowerState) (o : Output) (loc : Location) (b : Body) : LowerState :=
  scopePushed (bodyOpened (o.onto { s with scopes := s.scopes.saveDirty }) b) loc (.body b)

theorem Mirror.entered {b : Body} (h : Mirror K before s' s) (hr : o.required = false)
    (hd : o.dirty = .none) (huses : usesFrameIn o.code = false) (hquiet : ∀ i ∈ o.code, i.isQuiet = true)
    (hcode : s'.code.toList = K.pre ++ before ++ is) (hcalm : Tidy true .clean before .clean)
    (htidy : ∀ d, Tidy d .clean is (.of s.scopes.dirty)) (htop : loc.hasParent = false)
    (hdrops : b.Drops s.scopes.dirty) : Beside keep (entered s' o loc (b.movedTo (K.pre ++ before).length))
      (entered s o loc (b.movedTo (slim keep (K.pre ++ before)).length)) := by
  obtain ⟨⟨control, rootScopes, code, rfl⟩, hopening, hclosing, hkept, htrimmed, hmarks, more, hseg⟩ := h
  obtain rfl : is = more := by
    rw [hseg.kept, ← List.append_assoc] at hcode
    exact (List.append_cancel_left hcode).symm
  obtain ⟨hsize, hsize'⟩ := hseg.sizes
  have hleaf : slim keep o.code = o.code := slim_of_isLeaf fun i hi => isLeaf_of_isQuiet (hquiet i hi)
  have hflag : usesFrameIn (before ++ (is ++ o.code)) = usesFrameIn (before ++ is) := by
    rw [← List.append_assoc, usesFrameIn_append, huses, Bool.or_false]
  have hheaded : Headed before (is ++ o.code) loc b s.scopes.dirty :=
    ⟨hcalm, fun d => (htidy d).append (.of_quiet hquiet), hflag ▸ hseg.dirty, htop, hdrops⟩
  let inside := K.inner hheaded
  have hpre : K.pre ++ (before ++ is) ++ o.code = inside.pre := by
    simp only [inside, Outside.inner, List.append_assoc]
  have hinside : (code ++ o.code).toList = inside.pre ++ [] := by
    rw [Array.toList_appendList, show code.toList = _ from hseg.kept, ← hpre, List.append_nil]
  simp only [Trimming.entered, Output.onto_quiet hr hd]
  refine ⟨inside, ⟨⟨_, _, _, rfl⟩, rfl, hclosing, ?_, ?_, ?_, [], hinside, ?_, ?_, ?_, nofun⟩, ⟨[], hinside, .nil⟩, rfl⟩
  · exact (stack_push _ _).trans (congrArg _ hkept)
  · exact (stack_push _ _).trans (congrArg _ htrimmed)
  · exact (stack_push _ _).trans (congrArg _ hmarks)
  · show (s.code ++ o.code).toList = slim keep (inside.pre ++ [])
    rw [Array.toList_appendList, hseg.trimmed, ← hpre, List.append_nil, slim_append _ _ o.code, hleaf]
  · have hstart : (code ++ o.code).size = inside.pre.length := by
      rw [← Array.length_toList, hinside, List.append_nil]
    show stack (rootScopes.push ⟨(code ++ o.code).size, false⟩) = _
    rw [stack_push, hstart, show stack rootScopes = _ from hseg.rootsKept, ← hflag]
    rfl
  · have hstart : (s.code ++ o.code).size = (slim keep inside.pre).length := by
      rw [← hpre, slim_append, List.length_append, hleaf, ← hsize',
        ← Array.length_toList, Array.toList_appendList, List.length_append]
      rfl
    show stack (s.scopes.rootScopes.push ⟨(s.code ++ o.code).size, false⟩) = _
    rw [stack_push, hstart, hseg.rootsTrimmed, ← hflag]
    rfl

theorem beginScope_keeps (hloc : loc.path ≠ []) (htop : loc.hasParent = false)
    (henter : ∀ argv, ∃ known, Opening (settingOf env) known fun start => enter start argv) :
    Keeps env (beginScope least b loc enter) := by
  rintro s' s u t ⟨K, hs, hswept, hdone⟩ hx
  obtain ⟨before, hseg, hs, hcalm⟩ := hs.here hswept hdone
  obtain ⟨hsize, hsize'⟩ := hseg.sizes
  obtain ⟨hframes, argv, s₂, s₄, s₅, f, hargs, hleast, hin, hsettle, hf, hcontrol, rfl⟩ := beginScope_iff.mp hx
  have hframes' : s'.scopes.variableFrames.size < maxOpenScopes := by
    obtain ⟨control, roots, code, rfl⟩ := hs.same
    exact hframes
  have h₁ : Mirror K before (framePushed s') (framePushed s) := by
    obtain ⟨⟨control, roots, code, rfl⟩, hopening, hclosing, hkept, htrimmed, hmarks, more, hseg⟩ := hs
    exact ⟨⟨control, roots, code, rfl⟩, hopening, hclosing, hkept, htrimmed, hmarks, more,
      hseg.kept, hseg.trimmed, hseg.rootsKept, hseg.rootsTrimmed, hseg.dirty⟩
  obtain ⟨s₂', hargs', h₂⟩ := Mirrors.of_lays (arguments_lays b.args hloc 0) K before _ _ argv s₂ h₁ hargs
  obtain ⟨is, hcode, htidy, -⟩ := (arguments_lays b.args hloc 0 : Lays true false _).laid hargs'
  -- the condition and the body
  obtain ⟨known, hopening⟩ := henter argv
  obtain ⟨o, body, rfl, hdrops, hadds, hnat⟩ := hopening env _ _ _ s₄ rfl hin
  have hdirty : s₂'.scopes.saveDirty.openingDirty = s₂.scopes.saveDirty.openingDirty := by
    obtain ⟨control, roots, code, rfl⟩ := h₂.same
    rfl
  have hin' : enter s'.code.size argv (keeping env true) { s₂' with scopes := s₂'.scopes.saveDirty } =
      .ok () (bodyOpened (o.onto { s₂' with scopes := s₂'.scopes.saveDirty }) (body.movedTo s'.code.size)) :=
    hnat true _ _ h₂.shared.1 hdirty h₂.rootDepth
  obtain ⟨hr, hd, hquiet⟩ := hadds.quiet rfl
  have hclean : ∀ (c : LowerState) (n : Nat),
      (bodyOpened (o.onto { c with scopes := c.scopes.saveDirty }) (body.movedTo n)).scopes.dirty = false := by
    intro c n
    rw [Output.onto_quiet hr hd]
    rfl
  rw [settle_clean (hclean _ _)] at hsettle
  cases hsettle
  cases hf
  have hcontrol' : (bodyOpened (o.onto { s₂' with scopes := s₂'.scopes.saveDirty })
      (body.movedTo s'.code.size)).scopes.control.size < maxOpenScopes := by
    rw [Output.onto_quiet hr hd] at hcontrol ⊢
    show s₂'.scopes.control.size < _
    rw [h₂.depth]
    exact hcontrol
  refine ⟨entered s₂' o loc (body.movedTo s'.code.size), beginScope_iff.mpr ⟨hframes', argv, s₂', _, _, _, hargs',
    hleast, hin', settle_clean (hclean _ _) _, rfl, hcontrol', rfl⟩, ?_⟩
  rw [hsize, hsize']
  rw [show (framePushed s').scopes.dirty = false from hdone, h₂.shared.2] at htidy
  refine h₂.entered hr hd (hadds.required ▸ hr) hquiet (hseg.kept ▸ hcode) hcalm (fun d => htidy d nofun) htop ?_
  simpa [openingDirty, saveDirty] using hdrops

/-! ### Closing a scope -/

theorem slim_bodyCode (keep : Bool) (seg : List Instr) :
    slim keep (bodyCode true seg) = bodyCode (usesFrameIn seg || keep) (slim keep seg) := by
  cases keep with
  | false =>
    rw [Bool.or_false]
    exact trimAll_singleton _
  | true =>
    rw [Bool.or_true]
    rfl

theorem usesFrameIn_bodyCode (seg : List Instr) : usesFrameIn (bodyCode true seg) = false := rfl

theorem append_pair (code : Array Instr) (i j : Instr) : code ++ [i, j] = (code.push i).push j := by
  apply Array.ext'
  simp

/-- Code of a closed scope: its test and its body, and the value that it leaves in a new register. -/
def closedCode (b : Body) (test code : List Instr) (d : Reg) : List Instr :=
  match b with
  | .branch run _ => test ++ [.ifThen run code]
  | .whileLoop _ cond flush =>
    [.whileLoop test cond (if flush then code ++ [.entry d .flush []] else code), .constant (d + 1) (.bool true)]
  | .countLoop count => test ++ [.countLoop count code, .unary d .isPositive count]
  | .foreverLoop => test ++ [.foreverLoop code, .constant d (.bool false)]
  | .plain => test ++ code

def closedValue (b : Body) (d : Reg) : Operand :=
  match b with
  | .branch _ handled => .reg .bool handled
  | .whileLoop _ _ _ => .reg .bool (d + 1)
  | .countLoop _ => .reg .bool d
  | .foreverLoop => .reg .bool d
  | .plain => .nothing

def closedKinds : Body → List Content
  | .whileLoop _ _ _ => [.void, .value .bool]
  | .countLoop _ => [.value .bool]
  | .foreverLoop => [.value .bool]
  | _ => []

theorem closeBody_run (hcode : c.code.toList = front ++ test) (b : Body) (code : List Instr) (env : LowerEnv) :
    closeBody (b.movedTo front.length) code env c = .ok (closedValue b c.nextReg)
      { c with
        code := front.toArray ++ closedCode b test code c.nextReg
        nextReg := c.nextReg + (closedKinds b).length } := by
  have happend : ∀ is : List Instr, front.toArray ++ (test ++ is) = c.code ++ is := by
    intro is
    apply Array.ext'
    simp [hcode]
  cases b with
  | branch run handled =>
    simp only [closedCode, happend]
    rfl
  | whileLoop start cond flush =>
    obtain ⟨is, t, hcut⟩ : ∃ is t, cutFrom front.length env c = .ok is t := ⟨_, _, rfl⟩
    obtain ⟨his, rfl⟩ := cutFrom_ok hcut rfl hcode
    subst his
    rw [Body.movedTo, closeBody, bind_run hcut, closedCode, append_pair]
    rfl
  | countLoop | foreverLoop =>
    simp only [closedCode, happend, append_pair]
    rfl
  | plain =>
    simp only [closedCode, happend]
    have hlist : c.code ++ code.toArray = c.code ++ code := by
      apply Array.ext'
      simp
    show closeBody .plain code env c = _
    rw [closeBody, bind_run (emitAll_ok code c), hlist]
    rfl

theorem slim_closedCode (keep : Bool) (b : Body) (test code : List Instr) (d : Reg) :
    slim keep (closedCode b test code d) = closedCode b (slim keep test) (slim keep code) d := by
  cases keep with
  | true => rfl
  | false =>
    cases b with
    | whileLoop start cond flush => cases flush <;> simp [slim, closedCode, trimAll, trim, trimAll_append]
    | _ => simp [slim, closedCode, trimAll, trim, trimAll_append]

theorem Headed.usesFrameIn_closedCode {b : Body} (h : Headed before test loc b mark) (hcode : usesFrameIn code = false)
    (d : Reg) : usesFrameIn (before ++ closedCode b test code d) = usesFrameIn (before ++ test) := by
  cases b with
  | whileLoop start cond flush =>
    obtain rfl : flush = mark := h.drops
    cases flush with
    | false => simp [closedCode, usesFrameIn, usesFrame, usesFrameIn_append, hcode]
    | true =>
      rw [h.uses rfl]
      simp [closedCode, usesFrameIn, usesFrame, usesFrameIn_append, Entry.usesFrame]
  | _ => simp [closedCode, usesFrameIn_append, usesFrameIn, usesFrame, hcode]

theorem closeBody_beside {b : Body} (h : Mirror K [] c' c) (hseg : Segment K c' c (before ++ test))
    (hcode : usesFrameIn code = false) (hhead : Headed before test loc b mark) (env : LowerEnv) :
    ∃ v t' t, closeBody (b.movedTo (K.pre ++ before).length) code (keeping env true) c' = .ok v t' ∧
      closeBody (b.movedTo (slim keep (K.pre ++ before)).length) (slim keep code) env c =
        .ok v t ∧ Mirror K [] t' t := by
  have hkept : c'.code.toList = K.pre ++ before ++ test := by
    rw [hseg.kept, List.append_assoc]
  have htrimmed : c.code.toList = slim keep (K.pre ++ before) ++ slim keep test := by
    rw [hseg.trimmed, ← List.append_assoc, slim_append]
  have hnext := h.shared.1
  refine ⟨_, _, _, closeBody_run hkept b code _, (closeBody_run htrimmed b (slim keep code) _).trans (by rw [hnext]), ?_⟩
  have hflag := hhead.usesFrameIn_closedCode hcode c.nextReg
  obtain ⟨⟨control, rootScopes, buffer, rfl⟩, hopening, hclosing, hkept, htrimmed, hmarks, -⟩ := h
  refine ⟨⟨_, _, _, rfl⟩, hopening, hclosing, hkept, htrimmed, hmarks, before ++ closedCode b test code c.nextReg,
    ?_, ?_, ?_, ?_, ?_⟩
  · show ((K.pre ++ before).toArray ++ closedCode b test code c.nextReg).toList = _
    simp
  · rw [List.nil_append, ← List.append_assoc, slim_append _ _ (closedCode _ _ _ _), slim_closedCode]
    simp
  · rw [List.nil_append, hflag]
    exact hseg.rootsKept
  · rw [List.nil_append, hflag]
    exact hseg.rootsTrimmed
  · rw [List.nil_append, hflag]
    exact hseg.dirty

theorem Mirror.closed {b : Body} {hhead : Headed before test loc b mark} (h : Mirror (K.inner hhead) [] s' s)
    (hseg : Segment (K.inner hhead) s' s seg) (frame : VariableFrame) :
    Mirror K [] (scopeClosed s' frame (K.pre ++ before ++ test))
        (scopeClosed s frame (slim keep (K.pre ++ before ++ test))) ∧
      Segment K (scopeClosed s' frame (K.pre ++ before ++ test))
        (scopeClosed s frame (slim keep (K.pre ++ before ++ test))) (before ++ test) := by
  obtain ⟨⟨control, rootScopes, buffer, rfl⟩, hopening, hclosing, hkept, htrimmed, hmarks, -⟩ := h
  have houter : Segment K (scopeClosed (s.moved control rootScopes buffer) frame (K.pre ++ before ++ test))
      (scopeClosed s frame (slim keep (K.pre ++ before ++ test))) (before ++ test) := by
    refine ⟨List.append_assoc _ _ _, ?_, stack_pop hseg.rootsKept, stack_pop hseg.rootsTrimmed, ?_⟩
    · show slim keep _ = _
      rw [List.append_assoc]
    · intro hd
      have hd : s.scopes.dirtyStack.back?.getD false = true := hd
      rw [back?_of_stack hmarks] at hd
      exact hhead.uses hd
  exact ⟨⟨⟨_, _, _, rfl⟩, hopening, rfl, stack_pop hkept, stack_pop htrimmed, stack_pop hmarks, _, houter⟩, houter⟩

theorem tidy_closedCode {b : Body} (hhead : Headed before test loc b mark) (hseg : Tidy true .clean seg .clean) (d : Reg) :
    Tidy true .clean (before ++ closedCode b test [.rooted seg] d) (.of mark) := by
  have hrooted : ∀ {d m}, Tidy d m [.rooted seg] m := .rooted hseg .nil
  have htest := hhead.tidy true
  refine hhead.calm.append ?_
  cases b with
  | branch => exact htest.append (.ifThen hrooted .nil)
  | countLoop => exact htest.append (.countLoop hrooted (.quiet rfl .nil))
  | foreverLoop => exact htest.append (.foreverLoop hrooted (.quiet rfl .nil))
  | plain => exact htest.append hrooted
  | whileLoop start cond flush =>
    obtain rfl : flush = mark := hhead.drops
    refine .whileSwept (hhead.tidy false) ?_ (.quiet rfl .nil)
    cases flush with
    | false => exact hrooted
    | true => exact hrooted.append (.flush nofun .nil)

theorem settle_dirty (hloc : loc.hasParent = false) (hrun : settle loc env s = .ok u t) : t.scopes.dirty = false := by
  cases (settle_run loc env s).symm.trans hrun
  rw [hloc]
  cases hdirty : s.scopes.dirty with
  | false => exact hdirty
  | true => rfl

theorem closeScope_keeps (loc : Location) : Keeps env (closeScope loc) := by
  rintro s' s v t ⟨K, hs, hswept, hdone⟩ hx
  obtain ⟨seg, hseg, -, htidy⟩ := hs.here hswept hdone
  have hcode : s.code.toList = slim env.keepScopes K.pre ++ slim env.keepScopes seg := by
    rw [hseg.trimmed, slim_append]
  obtain ⟨opener, body, frame, s₂, hback, hframe, hclose, hsettle⟩ :=
    closeScope_ok (back?_of_stack hseg.rootsTrimmed) rfl hcode hx
  have hframe' : s'.scopes.variableFrames.back? = some frame := by
    obtain ⟨control, roots, code, rfl⟩ := hs.same
    exact hframe
  obtain ⟨pre, kept, trimmed, rootsKept, rootsTrimmed, marks, nested⟩ := K
  cases nested with
  | outermost hfunction =>
    have hmem := Array.mem_of_back? hback
    have hfun := hfunction _ (by
      rw [← show stack s.scopes.control = kept from hs.trimmed, stack, List.mem_reverse]
      exact Array.mem_toList_iff.mpr hmem)
    cases hfun
  | @scope kept trimmed rootsKept rootsTrimmed marks pre before test loc' b mark nested hhead =>
    let K : Outside env.keepScopes := ⟨pre, kept, trimmed, rootsKept, rootsTrimmed, marks, nested⟩
    have hs : Mirror (K.inner hhead) [] s' s := hs
    obtain ⟨hclosed, houter⟩ := hs.closed hseg frame
    rw [back?_of_stack hs.trimmed] at hback
    cases hback
    have hbody : bodyCode (usesFrameIn seg || env.keepScopes) (slim env.keepScopes seg ++ [.poll]) =
        slim env.keepScopes (bodyCode true (seg ++ [.poll])) := by
      rw [slim_bodyCode, slim_append, usesFrameIn_append, show slim _ [.poll] = [.poll] from slim_of_isLeaf (by simp [isLeaf])]
      exact (congrArg (bodyCode · _) (congrArg (· || _) (Bool.or_false _))).symm
    obtain ⟨v', t', t₂, hrun', hrun, hm⟩ := closeBody_beside hclosed houter
      (usesFrameIn_bodyCode (seg ++ [.poll])) hhead env
    have hsame : closeBody (b.movedTo (slim env.keepScopes (pre ++ before)).length)
        (bodyCode (usesFrameIn seg || env.keepScopes) (slim env.keepScopes seg ++ [.poll])) env
        (scopeClosed s frame (slim env.keepScopes (pre ++ before ++ test))) = .ok v s₂ := hclose
    rw [hbody] at hsame
    cases hrun.symm.trans hsame
    have hswept' : Swept K t' := by
      cases (closeBody_run rfl b _ _).symm.trans hrun'
      have hmark : (scopeClosed s' frame (pre ++ before ++ test)).scopes.dirty = mark := by
        obtain ⟨control, roots, code, rfl⟩ := hs.same
        exact congrArg (Option.getD · false) (back?_of_stack hs.marks)
      refine ⟨_, (Array.toList_appendList ..).trans (List.append_assoc ..), ?_⟩
      exact hmark ▸ tidy_closedCode hhead (htidy.append (.quiet rfl .nil)) _
    obtain ⟨t'', hsettle', hm'⟩ := settle_mirrors opener K [] t' s₂ () t hm hsettle
    refine ⟨t'', ?_, K, hm', hswept'.lays (settle_lays opener) hsettle', settle_dirty hhead.top hsettle'⟩
    have hpolled : (s'.code.push .poll).toList = (K.inner hhead).pre ++ (seg ++ [.poll]) := by
      rw [Array.toList_push, hseg.kept]
      exact List.append_assoc ..
    have hroots' := closeRoots_run (s := { scopeClosed s' frame [] with
      code := s'.code.push .poll
      scopes := { (scopeClosed s' frame []).scopes with rootScopes := s'.scopes.rootScopes } }) opener
      (keeping env true) (back?_of_stack hseg.rootsKept) rfl hpolled
    rw [show (usesFrameIn seg || (keeping env true).keepScopes) = true from Bool.or_true _] at hroots'
    exact closeScope_iff.mpr ⟨opener, _, frame, _, _, t', back?_of_stack hs.kept, hframe', hroots', hrun', hsettle'⟩

theorem hat_keeps (hmain : env.kind = .main) (hloc : loc.path ≠ []) (htop : loc.hasParent = false) :
    Keeps env (hat h least b loc) := by
  rintro s' s u t ⟨K, hs, hswept, -⟩ hx
  obtain ⟨rfl, argv, s₁, s₂, pushed, hargs, hleast, hsettle, hpush⟩ := (hat_iff hmain).mp hx
  obtain ⟨s₁', hargs', h₁⟩ := Mirrors.of_lays (arguments_lays b.args hloc 0) K [] s' s argv s₁ hs hargs
  obtain ⟨t', hsettle', ht⟩ := settle_mirrors loc K [] s₁' s₁ () s₂ h₁ hsettle
  have hopening : t'.scopes.opening = none := by
    obtain ⟨control, roots, code, rfl⟩ := ht.same
    exact ht.opening
  cases (tryScopes_run (pushOpened_none ht.opening)).symm.trans hpush
  have hswept' := (hswept.lays (arguments_lays b.args hloc 0) hargs').lays (settle_lays loc) hsettle'
  have hkind : (keeping env true).kind = .main := hmain
  exact ⟨t', (hat_iff hkind).mpr ⟨rfl, argv, s₁', t', false, hargs', hleast, hsettle',
    tryScopes_run (pushOpened_none hopening)⟩, K, ht, hswept', settle_dirty htop hsettle'⟩

theorem plainBlock_keeps (resolved : Resolved) (hloc : loc.path ≠ []) (htop : loc.hasParent = false) : Keeps env (do
      let argv ← arguments b.args loc 0
      let _ ← applyPlain resolved b.id argv loc
      poll) := by
  refine .of_lays ((arguments_lays b.args hloc 0).bind fun _ => (applyPlain_lays _ _ _ (.inl rfl)).bind fun _ =>
    poll_lays) fun env s u t _ hrun => ?_
  obtain ⟨argv, s₁, -, hrun⟩ := bind_ok hrun
  obtain ⟨v, s₂, hplain, hpoll⟩ := bind_ok hrun
  rw [applyPlain_eq] at hplain
  obtain ⟨v, s₂', -, hplain⟩ := bind_ok hplain
  obtain ⟨⟨⟩, s₂'', hsettle, hpure⟩ := bind_ok hplain
  obtain ⟨-, rfl⟩ := pure_ok hpure
  have hdirty := settle_dirty htop hsettle
  cases hpoll
  exact hdirty

theorem block_keeps {position : Nat} (hpos : position = 0 → env.kind = .main) :
    Keeps env (block b index position) := by
  have hloc : (⟨index, [position]⟩ : Location).path ≠ [] := List.cons_ne_nil _ _
  refine Keeps.bind (.of_lays (resolve_lays b.id _) fun _ _ _ _ hd hx => (resolve_ok hx).1 ▸ hd) fun resolved => ?_
  cases resolved with
  | function | parameter => exact plainBlock_keeps _ hloc rfl
  | builtin kind least =>
    cases kind with
    | operation op => exact plainBlock_keeps _ hloc rfl
    | hat h =>
      by_cases hzero : position = 0
      · subst hzero
        exact hat_keeps (hpos rfl) hloc rfl
      · simp only [ne_eq, hzero, not_false_eq_true, if_true]
        exact fun _ _ _ _ _ hx => (fail_ok hx).elim
    | opener o => exact beginScope_keeps hloc rfl fun argv => ⟨_, openScope_opening o argv _⟩
    | continuation k =>
      exact (closeScope_keeps _).bind fun handled => beginScope_keeps hloc rfl fun argv =>
        ⟨_, openContinuation_opening k handled argv _⟩
    | close => exact (closeScope_keeps _).bind fun _ => .pure ()

theorem blocks_keeps : ∀ (bs : List Block) (position : Nat),
    (position = 0 → env.kind = .main) → Keeps env (blocks index bs position)
  | [], _, _ => .pure ()
  | b :: bs, position, hpos => by
    exact (block_keeps hpos).bind fun _ =>
      blocks_keeps bs (position + 1) fun h => absurd h (Nat.succ_ne_zero position)

def bottom (control : List (OpenScope Body)) (d : Reg) (h : ∀ o ∈ control, o.frame = .function) : Outside keep :=
  ⟨[.entry d .rootSave []], control, control, [], [], [], .outermost h⟩

def Ended (keep : Bool) (s' s : LowerState) : Prop :=
  ∃ control d h, Mirror (bottom control d h : Outside keep) [] s' s ∧ Swept (bottom control d h : Outside keep) s' ∧
    s'.scopes.dirty = false

theorem closeChain_ended (hs : Beside env.keepScopes s' s) (hx : closeChain index env s = .ok u t) :
    ∃ t', closeChain index (keeping env true) s' = .ok () t' ∧ Ended env.keepScopes t' t := by
  obtain ⟨hcloses, rfl⟩ := closeChain_ok hx
  obtain ⟨⟨pre, kept, trimmed, rootsKept, rootsTrimmed, marks, nested⟩, hm, hswept, hdirty⟩ := hs
  cases nested with
  | scope hnested hhead =>
    rw [back?_of_stack hm.trimmed, closesChain_body] at hcloses
    cases hcloses
  | outermost hfunction =>
    obtain ⟨⟨control, roots, code, rfl⟩, hopening, hclosing, hkept, htrimmed, hmarks, seg, hseg⟩ := hm
    have hsame : control = s.scopes.control := by
      have hstacks : stack control = stack s.scopes.control := hkept.trans htrimmed.symm
      exact Array.ext' (List.reverse_inj.mp hstacks)
    subst hsame
    refine ⟨_, closeChain_run index (keeping env true) hcloses, stack s.scopes.control.pop, _, fun o ho => ?_,
      ⟨⟨_, _, _, rfl⟩, hopening, hclosing, rfl, rfl, hmarks, seg,
        hseg.kept, hseg.trimmed, hseg.rootsKept, hseg.rootsTrimmed, hseg.dirty⟩, hswept, hdirty⟩
    have hkept : stack s.scopes.control = kept := hkept
    refine hfunction o (hkept ▸ ?_)
    have hmem := List.mem_reverse.mp ho
    exact List.mem_reverse.mpr (List.dropLast_subset _ hmem)

theorem Ended.reset (h : Ended keep s' s) :
    Beside keep { s' with scopes := s'.scopes.resetChain } { s with scopes := s.scopes.resetChain } := by
  obtain ⟨control, d, hcontrol, ⟨⟨_, roots, code, rfl⟩, -, -, -, -, -, seg, hseg⟩, ⟨is, hcode, htidy⟩, hdirty⟩ := h
  refine ⟨bottom [] d nofun, ⟨⟨_, _, _, rfl⟩, rfl, rfl, rfl, rfl, rfl, seg, hseg.kept, hseg.trimmed, hseg.rootsKept,
    hseg.rootsTrimmed, nofun⟩, ⟨is, hcode, ?_⟩, rfl⟩
  rwa [hdirty] at htidy

theorem chain_ended (hmain : env.kind = .main) (hs : Ended env.keepScopes s' s) (hx : chain index c env s = .ok u t) :
    ∃ t', chain index c (keeping env true) s' = .ok () t' ∧ Ended env.keepScopes t' t := by
  obtain ⟨⟨⟩, s₁, hreset, hrest⟩ := bind_ok hx
  obtain rfl := onScopes_ok hreset
  obtain ⟨⟨⟩, s₂, hblocks, hclose⟩ := bind_ok hrest
  obtain ⟨s₂', hblocks', hs₂⟩ := blocks_keeps c.blocks 0 (fun _ => hmain) _ _ _ s₂ hs.reset hblocks
  obtain ⟨t', hclose', ht⟩ := closeChain_ended hs₂ hclose
  refine ⟨t', ?_, ht⟩
  rw [chain, bind_run (show onScopes .resetChain (keeping env true) s' = .ok () _ from rfl), bind_run hblocks']
  exact hclose'

theorem slim_epilogue (keep : Bool) (kind : FunctionKind) (d : Reg) : slim keep (epilogue kind d) = epilogue kind d := by
  cases keep <;> cases kind <;> rfl

theorem usesFrameIn_epilogue (kind : FunctionKind) (d : Reg) : usesFrameIn (epilogue kind d) = false := by
  cases kind <;> rfl

/-- The lowering that keeps all root frames gives `kept` where the other one gives `code`. -/
structure KeptAs (keep : Bool) (code kept : FunctionCode) : Prop where
  slim : code = kept.slim keep
  idle : usesFrameIn kept.code = false
  tidy : kept.Tidy

theorem Ended.finish (loc : Location) (h : Ended env.keepScopes s' s) (hx : finish loc env s = .ok u t) :
    ∃ t', finish loc (keeping env true) s' = .ok () t' ∧ globalsOf t' = globalsOf t ∧
      KeptAs env.keepScopes (codeOf t) (codeOf t') := by
  obtain ⟨control, d, hcontrol, hm, hswept, hdirty⟩ := h
  obtain ⟨seg, hseg, -, htidy⟩ := hm.here hswept hdirty
  obtain ⟨t', ht', hglobals', hcode'⟩ := finish_run loc (keeping env true) hseg.rootsKept rfl hseg.kept
  obtain ⟨t₁, ht, hglobals, hcode⟩ := finish_run loc env hseg.rootsTrimmed rfl
    (hseg.trimmed.trans (slim_append _ _ _))
  cases ht.symm.trans hx
  have hkeep : (usesFrameIn seg || (keeping env true).keepScopes) = true := Bool.or_true _
  refine ⟨t', ht', ?_, ?_, ?_, ?_⟩
  · rw [hglobals, hglobals']
    obtain ⟨control, roots, code, rfl⟩ := hm.same
    rfl
  · rw [hcode, hcode']
    simp only [FunctionCode.slim, hkeep, slim_append, slim_bodyCode, slim_epilogue]
    obtain ⟨control, roots, code, rfl⟩ := hm.same
    rfl
  · rw [hcode']
    simp only [hkeep, usesFrameIn_append, usesFrameIn_bodyCode, usesFrameIn_epilogue, Bool.or_false]
    rfl
  · rw [hcode', hkeep]
    refine ⟨d, [.rooted seg] ++ epilogue env.kind s'.nextReg, rfl, .rooted htidy ?_⟩
    cases env.kind with
    | main => exact .leave .ret
    | user => exact .leave (.entry .ret)

theorem mainBegun_ended : Ended keep (mainBegun {}) (mainBegun {}) := by
  refine ⟨[], 0, nofun, ⟨⟨_, _, _, rfl⟩, rfl, rfl, rfl, rfl, rfl, [], rfl, ?_, rfl, ?_, nofun⟩, ⟨[], rfl, .nil⟩, rfl⟩
  all_goals cases keep <;> rfl

theorem mainChains_ended (hmain : env.kind = .main) : ∀ {chains : List (Nat × Chain)} {s' s t : LowerState},
    Ended env.keepScopes s' s → mainChains env chains s = (none, t) →
    ∃ t', mainChains (keeping env true) chains s' = (none, t') ∧ Ended env.keepScopes t' t
  | [], s', s, t, h, hx => by
    cases hx
    exact ⟨s', rfl, h⟩
  | (index, c) :: rest, s', s, t, h, hx => by
    obtain ⟨s₁, hchain, hrest⟩ := mainChains_cons hx
    obtain ⟨s₁', hchain', h₁⟩ := chain_ended hmain h hchain
    rw [mainChains, hchain']
    exact mainChains_ended hmain h₁ hrest

theorem lowerMain_kept {code : FunctionCode} (hmain : env.kind = .main) (hx : lowerMain env chains = (.ok code, g)) :
    ∃ kept, lowerMain (keeping env true) chains = (.ok kept, g) ∧ KeptAs env.keepScopes code kept := by
  obtain ⟨t, s, hchains, hfinish, rfl, rfl⟩ := lowerMain_ok hx
  obtain ⟨t', hchains', hended⟩ := mainChains_ended hmain mainBegun_ended hchains
  obtain ⟨s', hfinish', hglobals, hkept⟩ := hended.finish _ hfinish
  refine ⟨codeOf s', ?_, hkept⟩
  simp only [lowerMain, beginMain_run, hchains', hfinish', hglobals]

theorem begun_beside (s : LowerState) (loc : Location) : Beside keep (begun s loc) (begun s loc) := by
  refine ⟨bottom [⟨loc, .function⟩] s.nextReg (by simp), ?_, ⟨[.poll], rfl, .quiet rfl .nil⟩, rfl⟩
  refine ⟨⟨_, _, _, rfl⟩, rfl, rfl, rfl, rfl, rfl, [.poll], rfl, ?_, rfl, ?_, nofun⟩
  all_goals cases keep <;> rfl

theorem definition_ended (hid : b.id = "define_block") (hargs : b.args = [.blockdef id])
    (hkind : env.kind = .user name) (hscopes : s.scopes = {}) (hcode : s.code = #[])
    (hx : chain index ⟨b :: rest⟩ env s = .ok u t) :
    ∃ t', chain index ⟨b :: rest⟩ (keeping env true) s = .ok () t' ∧ Ended env.keepScopes t' t := by
  obtain ⟨s₁, s₂, hhead, hrest, hclose⟩ := (definition_iff hscopes).mp hx
  cases (head_run index env hid hargs hkind hscopes hcode).symm.trans hhead
  obtain ⟨s₂', hrest', hs₂⟩ := blocks_keeps rest 1 (fun h => absurd h (Nat.succ_ne_zero 0)) _ _ _ s₂
    (begun_beside s _) hrest
  obtain ⟨t', hclose', ht⟩ := closeChain_ended hs₂ hclose
  exact ⟨t', (definition_iff hscopes).mpr ⟨_, s₂', head_run index (keeping env true) hid hargs hkind hscopes hcode,
    hrest', hclose'⟩, ht⟩

theorem lowerDefinition_run (hchain : p.chains[d.chain]? = some c)
    (hlower : chain d.chain c (definingEnv env d) (startState g (paramsOf env d)) = .ok () s)
    (hfinish : finish ⟨d.chain, [0]⟩ (definingEnv env d) s = .ok () t) :
    lowerDefinition env p d g = (.ok (codeOf t), globalsOf t) := by
  have hrun : (do chain d.chain c; finish ⟨d.chain, [0]⟩ : Lower Unit) (definingEnv env d)
      (startState g (paramsOf env d)) = .ok () t := (bind_run hlower).trans hfinish
  unfold lowerDefinition
  simp only [List.getD_eq_getElem?_getD, hchain, Option.getD_some]
  split
  next hrun' =>
    cases hrun'.symm.trans hrun
    rfl
  next hrun' => cases hrun'.symm.trans hrun

theorem lowerDefinition_kept {code : FunctionCode}
    (hchain : p.chains[d.chain]? = some ⟨b :: rest⟩) (hid : b.id = "define_block") (hargs : b.args = [.blockdef id])
    (hx : lowerDefinition env p d g = (.ok code, g')) :
    ∃ kept, lowerDefinition (keeping env true) p d g = (.ok kept, g') ∧ KeptAs env.keepScopes code kept := by
  obtain ⟨s₁, s, hlower, hfinish, rfl, rfl⟩ := lowerDefinition_ok hchain hx
  obtain ⟨s₁', hlower', hended⟩ := definition_ended hid hargs rfl rfl rfl hlower
  obtain ⟨s', hfinish', hglobals, hkept⟩ := hended.finish _ hfinish
  refine ⟨codeOf s', ?_, hkept⟩
  rw [← hglobals]
  exact lowerDefinition_run hchain hlower' hfinish'

theorem lowerDefinitions_kept : ∀ {definitions : List Definition} {g g' : Globals} {codes : List FunctionCode},
    (∀ d ∈ definitions, ∃ b rest id, p.chains[d.chain]? = some ⟨b :: rest⟩ ∧ b.id = "define_block" ∧
      b.args = [.blockdef id]) → lowerDefinitions env p definitions g = (codes, [], g') →
    ∃ kept, lowerDefinitions (keeping env true) p definitions g = (kept, [], g') ∧
      codes = kept.map (FunctionCode.slim env.keepScopes) ∧ ∀ f ∈ kept, usesFrameIn f.code = false ∧ f.Tidy
  | [], g, g', codes, _, hx => by
    cases hx
    exact ⟨[], rfl, rfl, nofun⟩
  | d :: rest, g, g', codes, hheads, hx => by
    obtain ⟨b, bs, id, hchain, hid, hargs⟩ := hheads d List.mem_cons_self
    obtain ⟨code, g₁, codes', hone, hrest, rfl⟩ := lowerDefinitions_cons hx
    obtain ⟨kept, hone', rfl, hidle, htidy⟩ := lowerDefinition_kept hchain hid hargs hone
    obtain ⟨kepts, hrest', rfl, hkepts⟩ :=
      lowerDefinitions_kept (fun d hd => hheads d (List.mem_cons_of_mem _ hd)) hrest
    refine ⟨kept :: kepts, ?_, rfl, List.forall_mem_cons.mpr ⟨⟨hidle, htidy⟩, hkepts⟩⟩
    simp only [lowerDefinitions, hone', hrest']

theorem compile_run {main : FunctionCode} (hdecl : declare p = .ok (functions, definitions))
    (hmain : lowerMain (mainEnv p functions keep) (chainsHeaded p "on_start") = (.ok main, g))
    (hlater : lowerDefinitions (mainEnv p functions keep) p definitions g = (codes, [], g')) :
    (p.compile keep).result = .ok ⟨main, codes.toArray, g'.cells⟩ := by
  simp only [mainEnv] at hmain hlater
  simp only [Program.compile, hdecl, hmain, hlater]

theorem compile_kept {code : ProgramCode} (hheads : p.BareHeads) (hx : (p.compile keep).result = .ok code) :
    ∃ kept, (p.compile true).result = .ok kept ∧ code = kept.slim keep ∧ kept.OwnFrames ∧ kept.Tidy := by
  obtain ⟨functions, definitions, main, g, codes, g', hdecl, hmain, hlater, rfl⟩ := compile_ok hx
  obtain ⟨-, hdefs⟩ := declare_ok hheads hdecl
  have hheaded : ∀ d ∈ definitions, ∃ b rest id, p.chains[d.chain]? = some ⟨b :: rest⟩ ∧
      b.id = "define_block" ∧ b.args = [.blockdef id] := by
    intro d hd
    obtain ⟨k, hk⟩ := List.mem_iff_getElem?.mp hd
    obtain ⟨f, -, -, -, hhead⟩ := hdefs k d hk
    exact hhead
  obtain ⟨keptMain, hmain', rfl, hidle, htidy⟩ := lowerMain_kept rfl hmain
  obtain ⟨keptCodes, hlater', rfl, hkept⟩ := lowerDefinitions_kept hheaded hlater
  refine ⟨_, compile_run hdecl hmain' hlater', ?_, ⟨hidle, fun f hf => (hkept f (by simpa using hf)).1⟩, htidy,
    fun f hf => (hkept f (by simpa using hf)).2⟩
  simp [ProgramCode.slim, mainEnv]

theorem compile_tidy {code : ProgramCode} (hheads : p.BareHeads) (hx : (p.compile keep).result = .ok code) :
    code.Tidy := by
  obtain ⟨kept, -, rfl, -, htidy⟩ := compile_kept hheads hx
  exact htidy.slim keep

end Blockwork.Trimming
