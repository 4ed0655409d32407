import Blockwork.Proofs.Sweeping.Code
import Blockwork.Proofs.Typing.Scopes

/-! # Lowering with and without idle root frames
The two lowerings of a function go through states that differ in their code only: one is the trimmed code of the
other. -/

namespace Blockwork.Trimming

open Lower Instr Scopes
open Flow hiding known
open Typing

/-! ### States side by side -/

/-- What stands before the body of a scope: the code up to the statement that opens it, and its condition. -/
structure Headed (before test : List Instr) (loc : Location) (b : Body) (mark : Bool) : Prop where
  calm : Tidy true .clean before .clean
  tidy : ∀ d, Tidy d .clean test (.of mark)
  uses : mark = true → usesFrameIn (before ++ test) = true
  top : loc.hasParent = false
  drops : b.Drops mark

/-- Open scopes of the two lowerings, innermost first, with the root scopes around them and the marks of the
statements that opened them. -/
inductive Nested (keep : Bool) : List (OpenScope Body) → List (OpenScope Body) → List RootScope → List RootScope →
    List Bool → List Instr → Prop
  | outermost {control : List (OpenScope Body)} {d : Reg} : (∀ o ∈ control, o.frame = .function) →
      Nested keep control control [] [] [] [.entry d .rootSave []]
  | scope {kept trimmed : List (OpenScope Body)} {roots' roots : List RootScope} {marks : List Bool}
      {pre before test : List Instr} {loc : Location} {b : Body} {mark : Bool} :
      Nested keep kept trimmed roots' roots marks pre → Headed before test loc b mark →
      Nested keep (⟨loc, .body (b.movedTo (pre ++ before).length)⟩ :: kept)
        (⟨loc, .body (b.movedTo (slim keep (pre ++ before)).length)⟩ :: trimmed)
        (⟨pre.length, usesFrameIn (before ++ test)⟩ :: roots')
        (⟨(slim keep pre).length, usesFrameIn (before ++ test)⟩ :: roots) (mark :: marks)
        (pre ++ before ++ test)

theorem Nested.length_eq (h : Nested keep kept trimmed roots' roots marks pre) :
    kept.length = trimmed.length ∧ roots'.length = roots.length := by
  induction h with
  | outermost _ => exact ⟨rfl, rfl⟩
  | scope _ _ ih => exact ⟨congrArg (· + 1) ih.1, congrArg (· + 1) ih.2⟩

structure Outside (keep : Bool) where
  pre : List Instr
  kept : List (OpenScope Body)
  trimmed : List (OpenScope Body)
  rootsKept : List RootScope
  rootsTrimmed : List RootScope
  marks : List Bool
  nested : Nested keep kept trimmed rootsKept rootsTrimmed marks pre

structure Segment (K : Outside keep) (s' s : LowerState) (seg : List Instr) : Prop where
  kept : s'.code.toList = K.pre ++ seg
  trimmed : s.code.toList = slim keep (K.pre ++ seg)
  rootsKept : stack s'.scopes.rootScopes = ⟨K.pre.length, usesFrameIn seg⟩ :: K.rootsKept
  rootsTrimmed : stack s.scopes.rootScopes = ⟨(slim keep K.pre).length, usesFrameIn seg⟩ :: K.rootsTrimmed
  dirty : s.scopes.dirty = true → usesFrameIn seg = true

/-- The state `s'` of the lowering that keeps all root frames stands where `s` stands, in the innermost
root scope and behind its code `base`. -/
structure Mirror (K : Outside keep) (base : List Instr) (s' s : LowerState) : Prop where
  same : ∃ control roots code, s' = s.moved control roots code
  opening : s.scopes.opening = none
  closing : s.scopes.closing = none
  kept : stack s'.scopes.control = K.kept
  trimmed : stack s.scopes.control = K.trimmed
  marks : stack s.scopes.dirtyStack = K.marks
  segment : ∃ more, Segment K s' s (base ++ more)

theorem size_eq_of_stack {α : Type} {a b : Array α} (h : (stack a).length = (stack b).length) : a.size = b.size := by
  simpa [stack] using h

namespace Mirror

variable {K : Outside keep} {base : List Instr} {s' s : LowerState}

theorem shared (h : Mirror K base s' s) : s'.nextReg = s.nextReg ∧ s'.scopes.dirty = s.scopes.dirty := by
  obtain ⟨control, roots, code, rfl⟩ := h.same
  exact ⟨rfl, rfl⟩

theorem depth (h : Mirror K base s' s) : s'.scopes.control.size = s.scopes.control.size := by
  refine size_eq_of_stack ?_
  rw [h.kept, h.trimmed, K.nested.length_eq.1]

theorem rootDepth (h : Mirror K base s' s) : s'.scopes.rootScopes.size = s.scopes.rootScopes.size := by
  obtain ⟨more, hseg⟩ := h.segment
  refine size_eq_of_stack ?_
  rw [hseg.rootsKept, hseg.rootsTrimmed, List.length_cons, List.length_cons, K.nested.length_eq.2]

theorem onto (h : Mirror K base s' s) (o : Output) (hflag : ∀ u, (s.scopes.dirty = true → u = true) →
      (u || o.required) = (u || usesFrameIn o.code))
    (hdirty : ∀ u, (s.scopes.dirty = true → u = true) → o.dirty.getD s.scopes.dirty = true →
      (u || o.required) = true) : Mirror K base (o.onto s') (Output.onto { o with code := slim keep o.code } s) := by
  obtain ⟨⟨control, rootScopes, code, rfl⟩, hopening, hclosing, hkept, htrimmed, hmarks, more, hseg⟩ := h
  have hroot : ∀ (sc : Scopes Body) (n : Nat) (rs : List RootScope),
      stack sc.rootScopes = ⟨n, usesFrameIn (base ++ more)⟩ :: rs →
      stack (bif o.required then sc.requireRootScope else sc).rootScopes =
        ⟨n, usesFrameIn (base ++ (more ++ o.code))⟩ :: rs := by
    intro sc n rs hrs
    rw [← List.append_assoc, usesFrameIn_append, ← hflag _ hseg.dirty]
    cases o.required with
    | false => rwa [Bool.or_false]
    | true =>
      rw [Bool.or_true]
      exact stack_modify hrs
  have hcontrol : ∀ sc : Scopes Body, (bif o.required then sc.requireRootScope else sc).control = sc.control ∧
      (bif o.required then sc.requireRootScope else sc).dirtyStack = sc.dirtyStack ∧
      (bif o.required then sc.requireRootScope else sc).opening = sc.opening ∧
      (bif o.required then sc.requireRootScope else sc).closing = sc.closing := by
    intro sc
    cases o.required <;> exact ⟨rfl, rfl, rfl, rfl⟩
  refine ⟨?_, ?_, ?_, ?_, ?_, ?_, more ++ o.code, ?_, ?_, hroot _ _ _ hseg.rootsKept,
    hroot _ _ _ hseg.rootsTrimmed, ?_⟩
  · cases hr : o.required with
    | false =>
      refine ⟨control, rootScopes, code ++ o.code, ?_⟩
      simp only [Output.onto, LowerState.moved, hr]
      rfl
    | true =>
      refine ⟨control, (s.moved control rootScopes code).scopes.requireRootScope.rootScopes, code ++ o.code, ?_⟩
      simp only [Output.onto, LowerState.moved, hr]
      rfl
  · exact (hcontrol s.scopes).2.2.1.trans hopening
  · exact (hcontrol s.scopes).2.2.2.trans hclosing
  · exact (congrArg stack (hcontrol _).1).trans hkept
  · exact (congrArg stack (hcontrol s.scopes).1).trans htrimmed
  · exact (congrArg stack (hcontrol s.scopes).2.1).trans hmarks
  · rw [Output.code_onto, hseg.kept, List.append_assoc, List.append_assoc]
  · rw [Output.code_onto, hseg.trimmed, ← slim_append, List.append_assoc, List.append_assoc]
  · intro hd
    rw [← List.append_assoc, usesFrameIn_append, ← hflag _ hseg.dirty]
    exact hdirty _ hseg.dirty hd

theorem leaves {o : Output} (h : Mirror K base s' s) (hleaf : ∀ i ∈ o.code, i.isLeaf = true)
    (hflag : ∀ u, (s.scopes.dirty = true → u = true) → (u || o.required) = (u || usesFrameIn o.code))
    (hdirty : ∀ u, (s.scopes.dirty = true → u = true) → o.dirty.getD s.scopes.dirty = true →
      (u || o.required) = true) : Mirror K base (o.onto s') (o.onto s) := by
  have honto := h.onto o hflag hdirty
  rwa [slim_of_isLeaf hleaf] at honto

theorem output {o : Output} (h : Mirror K base s' s) (hleaf : ∀ i ∈ o.code, i.isLeaf = true)
    (hrequired : o.required = usesFrameIn o.code) (hmark : o.dirty = some true → o.required = true) :
    Mirror K base (o.onto s') (o.onto s) := by
  refine h.leaves hleaf (fun u _ => by rw [hrequired]) fun u hu hd => ?_
  cases hset : o.dirty with
  | some b =>
    rw [hset] at hd
    rw [hmark (hset.trans (congrArg some hd)), Bool.or_true]
  | none =>
    rw [hset] at hd
    rw [hu hd, Bool.true_or]

theorem apart {sc : Array (OpenScope Body)} (h : Mirror K base (s.moved sc roots code) s) (ht : s.Apart t) :
    Mirror K base (t.moved sc roots code) t := by
  obtain ⟨more, hseg⟩ := h.segment
  refine ⟨⟨sc, roots, code, rfl⟩, ht.opening.trans h.opening, ht.closing.trans h.closing, h.kept, ?_, ?_,
    more, hseg.kept, ?_, hseg.rootsKept, ?_, ?_⟩
  · rw [ht.control, h.trimmed]
  · rw [ht.marks, h.marks]
  · rw [ht.code, hseg.trimmed]
  · rw [ht.roots, hseg.rootsTrimmed]
  · rw [ht.dirty]
    exact hseg.dirty

end Mirror

/-! ### Steps that keep states side by side -/

/-- A step that succeeds succeeds in the same way when all root frames are kept. -/
def Mirrors {α : Type} (env : LowerEnv) (x : Lower α) : Prop :=
  ∀ (K : Outside env.keepScopes) base s' s a t, Mirror K base s' s → x env s = .ok a t →
    ∃ t', x (keeping env true) s' = .ok a t' ∧ Mirror K base t' t

section Rules

variable {env : LowerEnv} {α β : Type}

theorem Mirrors.pure : Mirrors env (pure a) := by
  intro K base s' s b t h hx
  obtain ⟨rfl, rfl⟩ := pure_ok hx
  exact ⟨s', rfl, h⟩

theorem Mirrors.fail : Mirrors env (Lower.fail cause loc : Lower α) :=
  fun _ _ _ _ _ _ _ hx => (fail_ok hx).elim

theorem Mirrors.bindOf {Q : α → Prop} {x : Lower α} {f : α → Lower β} (hx : Mirrors env x)
    (hQ : ∀ s a t, x env s = .ok a t → Q a) (hf : ∀ a, Q a → Mirrors env (f a)) :
    Mirrors env (x >>= f) := by
  intro K base s' s b t h hb
  obtain ⟨a, s₁, hxa, hfa⟩ := bind_ok hb
  obtain ⟨s₁', hxa', h₁⟩ := hx K base s' s a s₁ h hxa
  rw [bind_run hxa']
  exact hf a (hQ s a s₁ hxa) K base s₁' s₁ b t h₁ hfa

theorem Mirrors.bind {f : α → Lower β} (hx : Mirrors env x) (hf : ∀ a, Mirrors env (f a)) : Mirrors env (x >>= f) :=
  hx.bindOf (fun _ _ _ _ => trivial) fun a _ => hf a

theorem Mirrors.ofState {f : LowerState → Lower α} 
    (hsame : ∀ (K : Outside env.keepScopes) base s' s, Mirror K base s' s → f s' = f s) (h : ∀ s, Mirrors env (f s)) : Mirrors env (get >>= f) := by
  intro K base s' s a t hs hx
  show ∃ t', f s' (keeping env true) s' = .ok a t' ∧ Mirror K base t' t
  rw [hsame K base s' s hs]
  exact h s K base s' s a t hs hx

theorem Mirrors.ofEnv {f : LowerEnv → Lower α} (hsame : ∀ keep, f (keeping env keep) = f env)
    (h : Mirrors env (f env)) : Mirrors env (read >>= f) := by
  intro K base s' s a t hs hx
  show ∃ t', f (keeping env true) (keeping env true) s' = .ok a t' ∧ Mirror K base t' t
  rw [hsame]
  exact h K base s' s a t hs hx

theorem Mirrors.straight {gives : α → List (Reg × Content)}
    (h : Straight (settingOf env) loud known x gives) : Mirrors env x := by
  intro K base s' s a t hs hx
  obtain ⟨o, rfl, hnat, hadds⟩ := h env s a t rfl hx
  exact ⟨o.onto s', hnat true s' hs.shared.1, hs.output hadds.leaf hadds.required hadds.dirty⟩

theorem Mirrors.of_run {x : Lower α} {a : Reg → α} {o : Reg → Output}
    (hrun : ∀ env s, x env s = .ok (a s.nextReg) ((o s.nextReg).onto s)) (hleaf : ∀ d, ∀ i ∈ (o d).code, i.isLeaf = true)
    (hrequired : ∀ d, (o d).required = usesFrameIn (o d).code)
    (hmark : ∀ d, (o d).dirty = some true → (o d).required = true) : Mirrors env x := by
  intro K base s' s b t hs hx
  cases (hrun _ s).symm.trans hx
  have hnext := hs.shared.1
  exact ⟨_, (hrun _ s').trans (by rw [hnext]), hs.output (hleaf _) (hrequired _) (hmark _)⟩

theorem settle_mirrors (loc : Location) : Mirrors env (settle loc) := by
  intro K base s' s a t hs hx
  obtain ⟨hnext, hdirty⟩ := hs.shared
  cases (settle_run loc _ s).symm.trans hx
  refine ⟨_, settle_run loc _ s', ?_⟩
  rw [hdirty]
  split
  case isFalse => exact hs
  case isTrue hcond =>
    have hflushed (c : LowerState) :
        flushed c = Output.onto ⟨[.entry c.nextReg .flush []], c.nextReg + 1, false, some false⟩ c := rfl
    rw [hflushed, hflushed, hnext]
    refine hs.leaves ?_ (fun u hu => ?_) nofun
    · intro i hi
      obtain rfl := List.mem_singleton.mp hi
      rfl
    · rw [hu (Bool.and_eq_true_iff.mp hcond).2, Bool.true_or, Bool.true_or]

end Rules

variable {env : LowerEnv}

theorem Mirrors.of_lays {α : Type} {x : Lower α} (h : Lays true true x) : Mirrors env x := by
  induction h with
  | pure => exact .pure
  | bind _ _ ihx ihf => exact .bind ihx ihf
  | fail => exact .fail
  | read hsame _ ih => exact .ofEnv (hsame env) (ih env)
  | get hsame _ ih =>
    refine .ofState (fun K base s' s hs => ?_) ih
    have hdepth := hs.depth
    obtain ⟨control, roots, code, rfl⟩ := hs.same
    exact hsame s control roots code hdepth
  | aside hx =>
    intro K base s' s a t hs hrun
    obtain ⟨b, u, hok, hapart, hmoved⟩ := hx env s
    obtain ⟨control, roots, code, rfl⟩ := hs.same
    cases hok.symm.trans hrun
    exact ⟨_, hmoved true control roots code, hs.apart hapart⟩
  | @emit i hi =>
    refine .of_run (a := fun _ => ()) (o := Output.one i) (fun _ _ => rfl) (fun _ j hj => ?_) (fun _ => ?_)
      (by rintro _ ⟨⟩)
    · obtain rfl := List.mem_singleton.mp hj
      exact isLeaf_of_isQuiet hi
    · rw [Output.one, usesFrameIn_singleton, usesFrame_of_isQuiet hi]
  | @soil i _ hi =>
    refine .of_run (a := id) (o := fun d => ⟨[i d], d + 1, true, some true⟩) (fun _ _ => rfl) (fun d j hj => ?_)
      (fun d => ?_) fun _ _ => rfl
    · obtain rfl := List.mem_singleton.mp hj
      exact isLeaf_of_soils (hi d)
    · rw [usesFrameIn_singleton, usesFrame_of_soils (hi d)]
  | @register r =>
    refine .of_run (a := fun _ => ()) (o := fun d => ⟨[.entry d .addRoot [r]], d + 1, true, .none⟩) (fun _ _ => rfl)
      (fun d j hj => ?_) (fun _ => rfl) (by rintro _ ⟨⟩)
    obtain rfl := List.mem_singleton.mp hj
    rfl
  | settle loc => exact settle_mirrors loc
  | leave value loc => exact .straight (leave_straight value loc)

def texted (s : LowerState) (name text : String) : LowerState :=
  match Scopes.lastNamed? s.scopes.locals name with
  | some i => { s with scopes := { s.scopes with locals := retext s.scopes.locals i text } }
  | none =>
    match Scopes.lastNamed? s.globals name with
    | some i => { s with globals := retext s.globals i text }
    | none => s

theorem setConstant_run (name text : String) (env : LowerEnv) (s : LowerState) :
    setConstant name text env s = .ok () (texted s name text) := by
  unfold texted
  cases hlocal : lastNamed? s.scopes.locals name with
  | some i =>
    rw [setConstant, bind_run (tryScopes_run (b := true) (c := { s.scopes with locals := retext s.scopes.locals i text }) ?_)]
    · rfl
    · simp only [setLocal, hlocal]
      rfl
  | none =>
    rw [setConstant, bind_run (tryScopes_run (b := false) (c := s.scopes) ?_)]
    · rfl
    · simp only [setLocal, hlocal]

end Blockwork.Trimming
