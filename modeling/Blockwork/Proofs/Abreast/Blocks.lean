import Blockwork.Proofs.Abreast.States

/-! # Blocks abreast
Blocks and chains fail alike from states side by side. -/

namespace Blockwork

open Instr

namespace Location

theorem descend_append (b : Block) (path : List Nat) (i : Nat) :
    descend b (path ++ [i]) = (descend b path).bind (descend · [i]) := by
  induction path generalizing b with
  | nil => rfl
  | cons j path ih =>
    rw [List.cons_append, descend, descend]
    split
    · exact ih _
    · rfl

theorem resolve_child {l : Location} {inner : Block} (hb : l.resolve p = some b)
    (hi : b.args[i]? = some (.block inner)) : (l.child i).resolve p = some inner := by
  obtain ⟨index, path⟩ := l
  cases path with
  | nil =>
    unfold resolve at hb
    split at hb <;> simp_all
  | cons =>
    cases hc : p.chains[index]? with
    | none => simp [resolve, hc] at hb
    | some =>
      simp only [resolve, hc, child, List.cons_append, descend_append] at hb ⊢
      obtain ⟨first, hfirst, hdescend⟩ := Option.bind_eq_some_iff.mp hb
      simp [hfirst, hdescend, descend, hi]

end Location

namespace Abreast

open Lower Compile Scopes
open Flow
open Typing

variable {P : Pairing}

def Pairing.Stands (P : Pairing) (loc : Location) (b : Block) : Prop :=
  P.exact = false → loc.chain = P.chain ∧ loc.resolve P.program = some b

theorem Pairing.Stands.blames (h : P.Stands loc b) : P.Blames loc (P.place loc) := by
  intro he
  obtain ⟨hchain, hb⟩ := h he
  exact ⟨by rw [Pairing.place, ← hchain], hchain, b, hb⟩

theorem Pairing.Stands.child {inner : Block} (h : P.Stands loc b) (hi : b.args[i]? = some (.block inner)) :
    P.Stands (loc.child i) inner :=
  fun he => ⟨(h he).1, Location.resolve_child (h he).2 hi⟩

/-! ### Operations -/

section Operations

variable {id : String} (h : P.Akin a b)
  (hargs : List.Forall₂ P.Akin argv argv') (hloc : P.Blames loc (P.place loc))

include h hloc in
theorem leave_twins : Twins P Any (leave a loc) (leave b (P.place loc)) := by
  refine (perform_twins _ fun _ => rfl).bind fun _ _ _ => .ofEnv ?_
  rw [P.kind]
  have hreturn : Twins P Any (do emit (.ret (some (← toAny a loc))); onScopes (·.setDirty false))
      (do emit (.ret (some (← toAny b (P.place loc)))); onScopes (·.setDirty false)) :=
    (toAny_twins h hloc).bind fun q r hqr => (emit_twins fun he => by rw [hqr he]; rfl).bind fun _ _ _ =>
      setDirty_twins false
  cases P.env.kind with
  | main => exact (emit_twins fun _ => rfl).bind fun _ _ _ => setDirty_twins false
  | user =>
    cases h with
    | reg ty hqr =>
      dsimp only
      split
      · exact (perform_twins _ fun he => by rw [hqr he]).bind fun _ _ _ => hreturn
      · exact hreturn
    | _ => exact hreturn

theorem getD_akin (h : List.Forall₂ P.Akin argv argv') (i : Nat) :
    P.Akin (argv.getD i .nothing) (argv'.getD i .nothing) := by
  induction h generalizing i with
  | nil => exact .nothing
  | cons hab _ ih =>
    cases i with
    | zero => exact hab
    | succ i => exact ih i

include hloc in
theorem requireArguments_twins :
    Twins P Any (requireArguments id least got loc) (requireArguments id least got (P.place loc)) :=
  (Twins.same (requireArguments_parallel id least got hloc) (List.forall_mem_nil _)).mono fun _ _ _ => trivial

section Arguments

include hargs hloc

theorem operation_twins : Twins P P.Akin (operation op argv loc) (operation op argv' (P.place loc)) := by
  obtain ⟨known, hknown, hlike⟩ := akin_like hargs
  have hakin : ∀ i, P.Akin (argv.getD i .nothing) (argv'.getD i .nothing) := getD_akin hargs
  have hplain (hop : Operation.isPlain false op = true) :
      Twins P P.Akin (operation op argv loc) (operation op argv' (P.place loc)) :=
    .operand (operation_parallel hop hlike hloc) hknown
  cases op with
  | leave => exact (leave_twins (hakin 0) hloc).bind fun _ _ _ => .pure .nothing
  | declare => exact declarationBlock_twins (hakin 0) (hakin 1) hloc
  | getVariable =>
    refine (variableName_twins (hakin 0) hloc).bind fun name _ heq => ?_
    subst heq
    exact loadVariable_twins hloc
  | setVariable =>
    refine (variableName_twins (hakin 0) hloc).bind fun name _ heq => ?_
    subst heq
    exact (storeVariable_twins (hakin 1) hloc).bind fun _ _ _ => .pure (hakin 1)
  | _ => exact hplain rfl

theorem callFunction_twins :
    Twins P P.Akin (callFunction i decl argv loc) (callFunction (P.number i) decl argv' (P.place loc)) := by
  unfold callFunction
  rw [hargs.length_eq]
  split
  · exact .fail hloc
  · split
    · exact .fail hloc
    · obtain ⟨known, hknown, hlike⟩ := akin_like hargs
      have hall : Twins P P.Same (argv.mapM (toAny · loc)) (argv'.mapM (toAny · (P.place loc))) :=
        .same (.mapM hlike fun _ _ _ hab => toAny_parallel hab hloc) hknown
      refine hall.bind fun args args' hregs => markDirty_twins.bind fun _ _ _ => fresh_twins.bind fun q r hqr => ?_
      refine (emit_twins fun he => by rw [hqr he, hregs he]; rfl).bind fun _ _ _ => ?_
      exact poll_twins.bind fun _ _ _ => .pure (.reg .any hqr)

theorem applyPlain_twins : Twins P P.Akin (applyPlain resolved id argv loc)
    (applyPlain (resolved.renumber P.number) id argv' (P.place loc)) := by
  have hvalue : Twins P P.Akin (plainValue resolved id argv loc)
      (plainValue (resolved.renumber P.number) id argv' (P.place loc)) := by
    cases resolved with
    | builtin b =>
      cases b with
      | operation =>
        simp only [Resolved.renumber, plainValue, hargs.length_eq]
        exact (requireArguments_twins hloc).bind fun _ _ _ => operation_twins hargs hloc
      | _ => exact .fail hloc
    | function => exact callFunction_twins hargs hloc
    | parameter => exact .pure (.reg .any fun _ => rfl)
  rw [applyPlain_eq, applyPlain_eq]
  exact hvalue.bind fun _ _ hab => settle_twins.bind fun _ _ _ => .pure hab

end Arguments

include hloc in
theorem resolve_twins : Twins P (fun r r' => r' = r.renumber P.number) (Lower.resolve id loc)
    (Lower.resolve id (P.place loc)) := by
  refine .ofEnv ?_
  simp only [P.functions, P.paramOwners, P.kind, findParameter?]
  cases Builtin.find? id with
  | some => exact .pure rfl
  | none =>
    cases findFunction? P.env.functions id with
    | some => exact .pure rfl
    | none =>
      cases P.env.paramOwners.lookup id with
      | none => exact .fail hloc
      | some =>
        cases P.env.kind with
        | main => exact .fail hloc
        | user =>
          simp only [Option.bind_map, Function.comp_def]
          split
          · exact .pure rfl
          · exact .fail hloc

end Operations

theorem isPlain_renumber (f : Nat → Nat) (r : Resolved) : (r.renumber f).isPlain = r.isPlain := by
  cases r <;> rfl

mutual

theorem arguments_twins (args : List Argument) (hb : P.Stands loc b) (hargs : b.args.drop i = args) :
    Twins P (List.Forall₂ P.Akin) (arguments args loc i) (arguments args (P.place loc) i) := by
  cases args with
  | nil => exact .pure .nil
  | cons a rest =>
    have ha : b.args[i]? = some a := by
      rw [← List.head?_drop, hargs, List.head?_cons]
    have hrest : b.args.drop (i + 1) = rest := by
      rw [← List.tail_drop, hargs, List.tail_cons]
    exact (argument_twins a hb ha).bind fun _ _ hab =>
      (arguments_twins rest hb hrest).bind fun _ _ hvs => .pure (.cons hab hvs)

theorem argument_twins (a : Argument) (hb : P.Stands loc b) (ha : b.args[i]? = some a) :
    Twins P P.Akin (Lower.argument a loc i) (Lower.argument a (P.place loc) i) := by
  cases a with
  | text s | constant s =>
    exact .pure (.literal s)
  | blockdef id =>
    exact .pure (.blockdef id)
  | color s =>
    exact .operand (colorArgument_parallel s hb.blames) (List.forall_mem_nil _)
  | block inner =>
    exact nested_twins inner (hb.child ha)

theorem nested_twins (b : Block) (hb : P.Stands loc b) : Twins P P.Akin (nested b loc) (nested b (P.place loc)) := by
  have hloc := hb.blames
  obtain ⟨id, args⟩ := b
  refine (resolve_twins hloc).bind fun resolved _ heq => ?_
  subst heq
  rw [isPlain_renumber]
  split
  · exact (arguments_twins args hb rfl).bind fun _ _ hvs => applyPlain_twins hvs hloc
  · exact .fail hloc

end

/-! ### Scopes -/

theorem mem_of_mem_pop {xs : Array α} (h : x ∈ xs.pop) : x ∈ xs := by
  rw [← Array.mem_toList_iff, Array.toList_pop] at h
  exact Array.mem_toList_iff.mp ((List.dropLast_sublist _).mem h)

section Stacks

variable (hloc : P.Blames loc (P.place loc))

include hloc

theorem pushVariableFrame_twins :
    Twins P Any (tryScopes (·.pushVariableFrame loc)) (tryScopes (·.pushVariableFrame (P.place loc))) := by
  refine .ofScopes fun s t hst => ?_
  have hsize : t.scopes.variableFrames.size = s.scopes.variableFrames.size := by
    simpa using congrArg Array.size hst.bases
  have hlocals : t.scopes.locals.size = s.scopes.locals.size := by
    simpa using congrArg Array.size hst.locals
  simp only [pushVariableFrame, hsize]
  split
  · exact .inr ⟨_, _, _, _, _, rfl, rfl, hloc⟩
  · exact .inl ⟨_, _, _, _, rfl, rfl, trivial, { hst with
      bases := by simp [hst.bases, hlocals]
      exact := fun he => by rw [hst.exact he]; rfl }⟩

theorem popVariableFrame_twins :
    Twins P Any (tryScopes (·.popVariableFrame loc)) (tryScopes (·.popVariableFrame (P.place loc))) := by
  refine .ofScopes fun s t hst => ?_
  have hback : t.scopes.variableFrames.back?.map VariableFrame.base =
      s.scopes.variableFrames.back?.map VariableFrame.base := by
    simpa using congrArg Array.back? hst.bases
  obtain ⟨hs, ht⟩ | ⟨f, g, hs, ht, hbase⟩ := alike_cases hback
  · simp only [popVariableFrame, hs, ht]
    exact .inr ⟨_, _, _, _, _, rfl, rfl, hloc⟩
  · simp only [popVariableFrame, hs, ht]
    refine .inl ⟨_, _, _, _, rfl, rfl, trivial, { hst with
      locals := by simp [hst.locals, hbase]
      bases := by simp [hst.bases]
      exact := fun he => ?_ }⟩
    rw [hst.exact he] at ht ⊢
    cases ht.symm.trans hs
    rfl

theorem pushOpened_twins : Twins P Eq (tryScopes (·.pushOpened loc)) (tryScopes (·.pushOpened (P.place loc))) := by
  refine .ofScopes fun s t hst => ?_
  have hsize : t.scopes.control.size = s.scopes.control.size := by
    simpa using congrArg Array.size hst.control
  obtain ⟨hs, ht⟩ | ⟨f, g, hs, ht, hframe⟩ := alike_cases hst.opening
  · simp only [pushOpened, hs, ht]
    exact .inl ⟨_, _, _, _, rfl, rfl, rfl, hst⟩
  · simp only [pushOpened, hs, ht, hsize]
    split
    · exact .inr ⟨_, _, _, _, _, rfl, rfl, hloc⟩
    · refine .inl ⟨_, _, _, _, rfl, rfl, rfl, { hst with
        control := by simp [hst.control, scopeOutline, Pairing.opened, hframe]
        opening := rfl
        places := fun o ho => ?_
        exact := fun he => ?_ }⟩
      · rcases Array.mem_push.mp ho with ho | rfl
        · exact hst.places o ho
        · exact hloc
      · rw [hst.exact he] at ht ⊢
        cases ht.symm.trans hs
        simp [Pairing.state, Pairing.opened]

theorem popControl_twins : Twins P (fun l l' => l' = P.place l ∧ P.Blames l l') (tryScopes (·.popControl loc))
      (tryScopes (·.popControl (P.place loc))) := by
  refine .ofScopes fun s t hst => ?_
  have hback : t.scopes.control.back?.map scopeOutline =
      s.scopes.control.back?.map fun o => scopeOutline (P.opened o) := by
    simpa using congrArg Array.back? hst.control
  obtain ⟨hs, ht⟩ | ⟨⟨l, frame⟩, ⟨l', frame'⟩, hs, ht, heq⟩ := alike_cases hback
  · simp only [popControl, hs, ht]
    exact .inr ⟨_, _, _, _, _, rfl, rfl, hloc⟩
  · simp only [scopeOutline, Pairing.opened, OpenScope.mk.injEq] at heq
    obtain ⟨rfl, hframe⟩ := heq
    have hl : P.Blames l (P.place l) := hst.places _ (Array.mem_of_back? hs)
    cases frame <;> cases frame'
    · simp only [popControl, hs, ht]
      refine .inl ⟨_, _, _, _, rfl, rfl, ⟨rfl, hl⟩, { hst with
        control := by simp [hst.control]
        closing := congrArg some hframe
        places := fun o ho => hst.places o (mem_of_mem_pop ho)
        exact := fun he => ?_ }⟩
      rw [hst.exact he] at ht ⊢
      simp only [Pairing.state, Array.back?_map, hs, Option.map_some] at ht ⊢
      cases ht
      simp
    · cases hframe
    · cases hframe
    · simp only [popControl, hs, ht]
      exact .inr ⟨_, _, _, _, _, rfl, rfl, hloc⟩

theorem closeFrame_twins : Twins P (P.Alike frameOutline) (tryScopes (·.closeFrame loc))
    (tryScopes (·.closeFrame (P.place loc))) := by
  refine .ofScopes fun s t hst => ?_
  obtain ⟨hs, ht⟩ | ⟨f, g, hs, ht, hframe⟩ := alike_cases hst.closing
  · simp only [closeFrame, hs, ht]
    exact .inr ⟨_, _, _, _, _, rfl, rfl, hloc⟩
  · simp only [closeFrame, hs, ht]
    refine .inl ⟨_, _, _, _, rfl, rfl, ⟨hframe, fun he => ?_⟩, { hst with
      closing := rfl
      exact := fun he => by rw [hst.exact he]; rfl }⟩
    rw [hst.exact he] at ht
    exact Option.some.inj (ht.symm.trans hs)

theorem openRoots_twins : Twins P Any (openRoots loc) (openRoots (P.place loc)) := by
  refine position_twins.bind fun m n hmn => .ofScopes fun s t hst => ?_
  simp only [pushRootScope, hst.roots]
  split
  · exact .inr ⟨_, _, _, _, _, rfl, rfl, hloc⟩
  · exact .inl ⟨_, _, _, _, rfl, rfl, trivial, { hst with
      roots := by simp [hst.roots]
      exact := fun he => by rw [hst.exact he, hmn he]; rfl }⟩

end Stacks

theorem closeRoots_twins (hloc : P.Blames loc loc') : Twins P P.Codes (closeRoots loc) (closeRoots loc') := by
  have hpop : Twins P P.Same (tryScopes (·.popRootScope (some loc))) (tryScopes (·.popRootScope (some loc'))) := by
    refine .ofScopes fun s t hst => ?_
    have hunits : t.scopes.rootScopes.map (fun _ => ()) = s.scopes.rootScopes.map (fun _ => ()) :=
      Array.ext (by simpa using hst.roots) (by simp)
    have hback : t.scopes.rootScopes.back?.map (fun _ => ()) = s.scopes.rootScopes.back?.map (fun _ => ()) := by
      rw [← Array.back?_map, hunits, Array.back?_map]
    obtain ⟨hs, ht⟩ | ⟨r, q, hs, ht, -⟩ := alike_cases hback
    · simp only [popRootScope, hs, ht]
      exact .inr ⟨_, _, _, _, _, rfl, rfl, hloc⟩
    · simp only [popRootScope, hs, ht]
      refine .inl ⟨_, _, _, _, rfl, rfl, fun he => ?_, { hst with
        roots := by simp [hst.roots]
        exact := fun he => by rw [hst.exact he]; rfl }⟩
      rw [hst.exact he] at ht
      exact Option.some.inj (ht.symm.trans hs)
  refine hpop.bind fun r q hrq => (cutFrom_twins fun he => by rw [hrq he]).bind fun body body' hbody => .ofEnv ?_
  rw [← apply_ite pure, ← apply_ite pure, P.keepScopes]
  refine .pure fun he => ?_
  rw [hrq he, hbody he]
  split
  · rw [List.map_singleton, renumber, renumberAll_eq_map]
  · rfl

theorem openFrame_twins (h : P.Alike frameOutline f g) :
    Twins P Any (onScopes (·.openFrame f)) (onScopes (·.openFrame g)) := .onScopes fun _ _ hst =>
  { hst with
    opening := congrArg some h.1
    exact := fun he => by rw [hst.exact he, h.2 he]; rfl }

section Bodies


theorem openBody_twins (h : P.Alike bodyOutline body body') (hloc : P.Blames loc (P.place loc)) :
    Twins P Any (openBody body loc) (openBody body' (P.place loc)) :=
  (openRoots_twins hloc).bind fun _ _ _ => openFrame_twins ⟨congrArg Frame.body h.1, fun he => by rw [h.2 he]⟩

theorem openScope_twins (h : List.Forall₂ P.Akin argv argv') (hmn : P.Same m n) (hloc : P.Blames loc (P.place loc)) :
    Twins P Any (openScope o m argv loc) (openScope o n argv' (P.place loc)) := by
  have h0 := getD_akin h 0
  cases o with
  | whenTrue =>
    exact (toBool_twins h0 hloc).bind fun q r hqr => openBody_twins ⟨rfl, fun he => by rw [hqr he]⟩ hloc
  | whileTrue =>
    refine (toBool_twins h0 hloc).bind fun q r hqr => .ofState fun s t hst => openBody_twins ⟨rfl, fun he => ?_⟩ hloc
    rw [hqr he, hmn he, openingDirty, hst.dirtyStack, openingDirty]
  | counted =>
    exact (toInteger_twins h0 hloc).bind fun q r hqr => openBody_twins ⟨rfl, fun he => by rw [hqr he]⟩ hloc
  | forever | doNothing => exact openBody_twins (.refl _) hloc

theorem openContinuation_twins (hab : P.Akin a b) (h : List.Forall₂ P.Akin argv argv')
    (hloc : P.Blames loc (P.place loc)) :
    Twins P Any (openContinuation c a argv loc) (openContinuation c b argv' (P.place loc)) := by
  refine (toBool_twins hab hloc).bind fun earlier earlier' hearlier => ?_
  cases c with
  | elseIf =>
    refine (toBool_twins (getD_akin h 0) hloc).bind fun cond cond' hcond => ?_
    refine (unary_twins hearlier _).bind fun _ _ hnot => (binary_twins hnot hcond _).bind fun run run' hrun => ?_
    refine (binary_twins hearlier hcond _).bind fun any any' hany => ?_
    exact openBody_twins ⟨rfl, fun he => by rw [hrun he, hany he]⟩ hloc
  | otherwise =>
    refine (unary_twins hearlier _).bind fun run run' hrun => (constant_twins _).bind fun any any' hany => ?_
    exact openBody_twins ⟨rfl, fun he => by rw [hrun he, hany he]⟩ hloc

theorem beginScope_twins {b : Block} (hb : P.Stands loc b)
    (henter : ∀ m n argv argv', P.Same m n → List.Forall₂ P.Akin argv argv' →
      Twins P Any (enter m argv) (enter' n argv')) :
    Twins P Any (beginScope least b loc enter) (beginScope least b (P.place loc) enter') := by
  have hloc := hb.blames
  refine position_twins.bind fun m n hmn => ?_
  refine (pushVariableFrame_twins hloc).bind fun _ _ _ => ?_
  refine (arguments_twins b.args hb rfl).bind fun argv argv' hargs => ?_
  refine saveDirty_twins.bind fun _ _ _ => ?_
  rw [hargs.length_eq]
  refine (requireArguments_twins hloc).bind fun _ _ _ => ?_
  refine (henter m n argv argv' hmn hargs).bind fun _ _ _ => ?_
  refine settle_twins.bind fun _ _ _ => ?_
  refine (pushOpened_twins hloc).bind fun pushed _ heq => ?_
  subst heq
  cases pushed with
  | true => exact .pure trivial
  | false => exact .fail hloc

theorem closeBody_twins (h : P.Alike bodyOutline body body') (hcode : P.Codes code code') :
    Twins P P.Akin (closeBody body code) (closeBody body' code') := by
  obtain ⟨houtline, hsame⟩ := h
  have hbody {f : List Instr → Instr} (hf : ∀ is, (f is).renumber P.number = f (renumberAll P.number is))
      (he : P.exact = true) : f code' = (f code).renumber P.number := by
    rw [hf, renumberAll_eq_map, hcode he]
  cases body <;> cases body' <;> cases houtline
  case branch.branch.refl run handled run' handled' =>
    refine (emit_twins fun he => ?_).bind fun _ _ _ => .pure (.reg .bool fun he => (Body.branch.inj (hsame he)).2)
    rw [(Body.branch.inj (hsame he)).1]
    exact hbody (fun _ => rfl) he
  case whileLoop.whileLoop.refl start cond flush start' cond' flush' =>
    refine (cutFrom_twins fun he => (Body.whileLoop.inj (hsame he)).1).bind fun test test' htest => ?_
    refine fresh_twins.bind fun q r hqr => (emit_twins fun he => ?_).bind fun _ _ _ =>
      (constant_twins _).bind fun _ _ hqr => .pure (.reg .bool hqr)
    obtain ⟨-, rfl, rfl⟩ := Body.whileLoop.inj (hsame he)
    rw [renumber, renumberAll_eq_map, renumberAll_eq_map, htest he, hcode he, hqr he]
    cases flush' with
    | false => rfl
    | true => rw [if_pos rfl, if_pos rfl, List.map_append]; rfl
  case countLoop.countLoop.refl count count' =>
    have hcount : P.Same count count' := fun he => Body.countLoop.inj (hsame he)
    refine (emit_twins fun he => ?_).bind fun _ _ _ => (unary_twins hcount _).bind fun _ _ hqr =>
      .pure (.reg .bool hqr)
    rw [hcount he]
    exact hbody (fun _ => rfl) he
  case foreverLoop.foreverLoop.refl =>
    exact (emit_twins (hbody fun _ => rfl)).bind fun _ _ _ => (constant_twins _).bind fun _ _ hqr =>
      .pure (.reg .bool hqr)
  case plain.plain.refl => exact (emitAll_twins hcode).bind fun _ _ _ => .pure .nothing

theorem closeScope_twins (hloc : P.Blames loc (P.place loc)) :
    Twins P P.Akin (closeScope loc) (closeScope (P.place loc)) := by
  refine (popControl_twins hloc).bind fun opener _ h => ?_
  obtain ⟨rfl, hopener⟩ := h
  refine poll_twins.bind fun _ _ _ => ?_
  refine (popVariableFrame_twins hopener).bind fun _ _ _ => ?_
  refine restoreDirty_twins.bind fun _ _ _ => ?_
  refine (closeFrame_twins hopener).bind fun f g hfg => ?_
  cases f <;> cases g
  · refine (closeRoots_twins hopener).bind fun _ _ hcode => (closeBody_twins ⟨?_, fun he => ?_⟩ hcode).bind
      fun _ _ hab => settle_twins.bind fun _ _ _ => .pure hab
    · exact Frame.body.inj hfg.1
    · exact Frame.body.inj (hfg.2 he)
  · cases hfg.1
  · cases hfg.1
  · exact .fail hopener

end Bodies

theorem beginFunction_twins (h : P.Akin a b) (hloc : P.Blames loc (P.place loc)) :
    Twins P Any (beginFunction a loc) (beginFunction b (P.place loc)) := by
  refine .ofEnv ?_
  rw [P.kind]
  cases h with
  | blockdef id =>
    cases P.env.kind with
    | main => exact .fail hloc
    | user =>
      exact (perform_twins _ fun _ => rfl).bind fun _ _ _ => (openRoots_twins hloc).bind fun _ _ _ =>
        poll_twins.bind fun _ _ _ => openFrame_twins (.refl _)
  | _ => exact .fail hloc

theorem hat_twins (hb : P.Stands loc b) : Twins P Any (hat h least b loc) (hat h least b (P.place loc)) := by
  have hloc := hb.blames
  have hend : Twins P Any (do settle loc; let _ ← tryScopes (·.pushOpened loc))
      (do settle (P.place loc); let _ ← tryScopes (·.pushOpened (P.place loc))) :=
    settle_twins.bind fun _ _ _ => (pushOpened_twins hloc).bind fun _ _ _ => .pure trivial
  refine (arguments_twins b.args hb rfl).bind fun argv argv' hargs => ?_
  rw [hargs.length_eq]
  refine (requireArguments_twins hloc).bind fun _ _ _ => ?_
  cases h with
  | onStart => exact hend
  | defineBlock => exact (beginFunction_twins (getD_akin hargs 0) hloc).bind fun _ _ _ => hend

theorem block_twins {position : Nat} (hb : P.Stands ⟨index, [position]⟩ b) :
    Twins P Any (block b index position) (block b P.chain position) := by
  have hloc := hb.blames
  have hplain : ∀ resolved : Resolved, Twins P Any
      (do let argv ← arguments b.args ⟨index, [position]⟩ 0
          let _ ← applyPlain resolved b.id argv ⟨index, [position]⟩
          poll)
      (do let argv ← arguments b.args ⟨P.chain, [position]⟩ 0
          let _ ← applyPlain (resolved.renumber P.number) b.id argv ⟨P.chain, [position]⟩
          poll) := fun resolved =>
    (arguments_twins b.args hb rfl).bind fun _ _ hargs => (applyPlain_twins hargs hloc).bind fun _ _ _ => poll_twins
  refine (resolve_twins hloc).bind fun resolved _ heq => ?_
  subst heq
  cases resolved with
  | builtin builtin =>
    cases builtin with
    | hat =>
      show Twins P Any (if position ≠ 0 then _ else _) (if position ≠ 0 then _ else _)
      split
      · exact .fail hloc
      · exact hat_twins hb
    | opener => exact beginScope_twins hb fun _ _ _ _ hmn hargs => openScope_twins hargs hmn hloc
    | continuation =>
      exact (closeScope_twins hloc).bind fun _ _ hab =>
        beginScope_twins hb fun _ _ _ _ _ hargs => openContinuation_twins hab hargs hloc
    | close => exact (closeScope_twins hloc).bind fun _ _ _ => .pure trivial
    | operation => exact hplain _
  | function | parameter => exact hplain _

/-- The chain stands in the first program, unless all agrees and places do not matter. -/
def Pairing.Holds (P : Pairing) (index : Nat) (c : Chain) : Prop :=
  P.exact = false → index = P.chain ∧ P.program.chains[index]? = some c ∧ c.blocks ≠ []


theorem blocks_twins (hc : P.Holds index c) (bs : List Block) {position : Nat} (hbs : c.blocks.drop position = bs) :
    Twins P Any (blocks index bs position) (blocks P.chain bs position) := by
  induction bs generalizing position with
  | nil => exact .pure trivial
  | cons b rest ih =>
    have hb : P.Stands ⟨index, [position]⟩ b := fun he => by
      obtain ⟨hindex, hchain, -⟩ := hc he
      exact ⟨hindex, by simp [Location.resolve, hchain, ← List.head?_drop, hbs, Location.descend]⟩
    have hrest : c.blocks.drop (position + 1) = rest := by
      rw [← List.tail_drop, hbs, List.tail_cons]
    exact (block_twins hb).bind fun _ _ _ => ih hrest

theorem closeChain_twins (hfirst : P.Blames ⟨index, [0]⟩ ⟨P.chain, [0]⟩) :
    Twins P Any (closeChain index) (closeChain P.chain) := by
  have htake : Twins P (fun o o' => o'.map scopeOutline = o.map (fun x => scopeOutline (P.opened x)) ∧
        ∀ x ∈ o, P.Blames x.loc (P.place x.loc))
      (tryScopes fun s => (.ok s.takeInnermost.1, s.takeInnermost.2))
      (tryScopes fun s => (.ok s.takeInnermost.1, s.takeInnermost.2)) := by
    refine .ofScopes fun s t hst => ?_
    have hback : t.scopes.control.back?.map scopeOutline =
        s.scopes.control.back?.map fun o => scopeOutline (P.opened o) := by
      simpa using congrArg Array.back? hst.control
    refine .inl ⟨_, _, _, _, rfl, rfl, ⟨hback, fun x hx => hst.places x (Array.mem_of_back? hx)⟩, { hst with
      control := by simp [takeInnermost, hst.control]
      places := fun o ho => hst.places o (mem_of_mem_pop ho)
      exact := fun he => ?_ }⟩
    rw [hst.exact he]
    simp [takeInnermost, Pairing.state]
  refine htake.bind fun o o' h => .ofEnv ?_
  rw [P.kind]
  obtain ⟨hsame, hplace⟩ := h
  obtain ⟨rfl, rfl⟩ | ⟨x, y, rfl, rfl, hxy⟩ := alike_cases hsame
  · cases P.env.kind with
    | main => exact .pure trivial
    | user => exact .fail hfirst
  · obtain ⟨l, frame⟩ := x
    obtain ⟨l', frame'⟩ := y
    simp only [scopeOutline, Pairing.opened, OpenScope.mk.injEq] at hxy
    obtain ⟨rfl, hframe⟩ := hxy
    have hl : P.Blames l (P.place l) := hplace _ rfl
    cases P.env.kind with
    | main => exact .fail hl
    | user =>
      cases frame <;> cases frame'
      · exact .fail hl
      · cases hframe
      · cases hframe
      · exact .pure trivial

theorem chain_paired (hc : P.Holds index c) (hroots : t.scopes.rootScopes.size = s.scopes.rootScopes.size)
    (hglobals : globalsOf t = globalsOf s) (hexact : P.exact = true → { t with scopes := t.scopes.resetChain } =
      P.state { s with scopes := s.scopes.resetChain }) :
    Paired P Any (chain index c P.env s) (chain P.chain c P.env' t) := by
  have hfirst : P.Blames ⟨index, [0]⟩ ⟨P.chain, [0]⟩ := fun he => by
    obtain ⟨rfl, hchain, hne⟩ := hc he
    obtain ⟨b, rest, hblocks⟩ := List.exists_cons_of_ne_nil hne
    exact ⟨rfl, rfl, b, by simp [Location.resolve, hchain, hblocks, Location.descend]⟩
  have hblocks : Twins P Any (do blocks index c.blocks 0; closeChain index)
      (do blocks P.chain c.blocks 0; closeChain P.chain) :=
    (blocks_twins hc c.blocks rfl).bind fun _ _ _ => closeChain_twins hfirst
  refine hblocks { s with scopes := s.scopes.resetChain } { t with scopes := t.scopes.resetChain } ?_
  exact ⟨by simp [resetChain], rfl, rfl, rfl, rfl, hroots, rfl, rfl, hglobals, by simp [resetChain],
    hexact⟩

end Abreast

end Blockwork
