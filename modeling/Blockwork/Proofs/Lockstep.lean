import Blockwork.Proofs.Attempts
import Blockwork.Proofs.Nesting

/-! # Stacks in step
Open scopes, variable scopes, root scopes and saved marks are kept on stacks of their own. -/

namespace Blockwork

namespace Nesting

open Lower
open Compile
open Flow

variable {position : Nat} {b : Block}

def Overflow (loc : Location) (e : CompileError) : Prop :=
  e.cause.isStructural = false ∨ e = ⟨.scopeOverflow, some loc⟩

theorem openRoots_full (hfull : maxOpenScopes ≤ s.scopes.rootScopes.size) :
    openRoots loc env s = .error ⟨.scopeOverflow, some loc⟩ s := by
  have hposition : Lower.position env s = .ok s.code.size s := rfl
  refine (bind_run hposition).trans ?_
  have hpush : s.scopes.pushRootScope s.code.size (some loc) = (.error ⟨.scopeOverflow, some loc⟩, s.scopes) :=
    if_pos hfull
  simp only [tryScopes, hpush]

theorem Opens.overflows (h : Opens loc x) :
    ∀ {s : LowerState}, maxOpenScopes ≤ s.scopes.rootScopes.size → Meets x env s (fun _ _ => False) (Overflow loc) := by
  induction h with
  | body =>
    intro s hfull
    exact .fails (bind_error (openRoots_full hfull)) (.inr rfl)
  | bind hx _ ih =>
    intro s hfull
    exact .bind ((hx env s).imp (fun a t hst => ih a (roots_eq hst ▸ hfull)) fun _ => .inl)

theorem beginScope_overflows (h : Tracks index kind scopes s) (hfull : scopes.length + 1 = maxOpenScopes)
    (henter : ∀ start argv, Opens ⟨index, [position]⟩ (enter start argv)) :
    Meets (beginScope least b ⟨index, [position]⟩ enter) env s (fun _ _ => False) (Overflow ⟨index, [position]⟩) := by
  rw [beginScope_eq]
  refine .bind (Meets.imp (ready_ends (List.cons_ne_nil _ _) ?_) (fun x s₁ h₁ => ?_) fun _ => .inl)
  · rw [h.frames]
    omega
  refine .bind ((henter x.1 x.2).overflows ?_ |>.mono fun _ _ => False.elim)
  exact Nat.le_of_eq (hfull.symm.trans ((roots_eq h₁).trans h.roots).symm)

/-! ### Blocks along the walk -/

theorem walk_length (h : b.walk position scopes = some scopes') : scopes'.length ≤ scopes.length + 1 := by
  unfold Block.walk at h
  split at h
  · cases h
    exact Nat.le_refl _
  · cases scopes with
    | nil => cases h
    | cons =>
      cases h
      exact Nat.le_succ _
  · cases scopes with
    | nil => cases h
    | cons =>
      cases h
      exact Nat.le_add_right _ 2
  · cases h
    exact Nat.le_succ _

theorem block_overflows (h : Tracks index kind scopes s) (hroom : scopes.length < maxOpenScopes)
    (hwalk : b.walk position scopes = some scopes') (hfull : scopes'.length = maxOpenScopes) :
    Meets (block b index position) env s (fun _ _ => False) (Overflow ⟨index, [position]⟩) := by
  cases hfind : Builtin.find? b.id with
  | none =>
    simp only [Block.walk, Block.role, hfind, Option.some.injEq] at hwalk
    subst hwalk
    omega
  | some found =>
    obtain ⟨x, least⟩ := found
    simp only [Block.walk, Block.role, hfind] at hwalk
    refine .bind (.run (resolve_builtin hfind) ?_)
    cases x with
    | hat | operation =>
      cases hwalk
      omega
    | opener o =>
      cases hwalk
      exact beginScope_overflows h hfull fun start argv => openScope_opens o start argv _
    | continuation c =>
      cases scopes with
      | nil => cases hwalk
      | cons =>
        cases hwalk
        refine .bind ((closeScope_ends h).imp (fun handled t ht => ?_) fun _ => .inl)
        exact beginScope_overflows ht hfull fun _ argv => openContinuation_opens c handled argv _
    | close =>
      cases scopes with
      | nil => cases hwalk
      | cons =>
        cases hwalk
        simp only [List.length_cons] at hroom
        omega

/-- Errors of blocks, the first of them standing at `position`: a cause that is not about scopes, a block without a
scope to close, or one that opens more scopes of the walk than there may be. -/
def Misfit (index : Nat) (bs : List Block) (position : Nat) (scopes : List Nat) (e : CompileError) : Prop :=
  e.cause.isStructural = false ∨ e.cause = .controlUnderflow ∨
    ∃ n scopes', n < bs.length ∧ walk (bs.take (n + 1)) position scopes = .ok scopes' ∧
      scopes'.length = maxOpenScopes ∧ e = ⟨.scopeOverflow, some ⟨index, [position + n]⟩⟩

def Follows (index : Nat) (env : LowerEnv) (bs : List Block) (position : Nat) (scopes : List Nat) (s : LowerState) :
    Prop :=
  Meets (blocks index bs position) env s
    (fun _ t => ∃ scopes', walk bs position scopes = .ok scopes' ∧ Tracks index env.kind scopes' t)
    (Misfit index bs position scopes)

theorem walk_cons (h : b.walk position scopes = some scopes') (bs : List Block) :
    walk (b :: bs) position scopes = walk bs (position + 1) scopes' := by
  simp only [walk, h]

theorem Misfit.cons (hwalk : b.walk position scopes = some scopes') (h : Misfit index bs (position + 1) scopes' e) :
    Misfit index (b :: bs) position scopes e := by
  rcases h with h | h | ⟨n, deep, hn, hdeep, hfull, rfl⟩
  · exact .inl h
  · exact .inr (.inl h)
  · refine .inr (.inr ⟨n + 1, deep, Nat.succ_lt_succ hn, ?_, hfull, ?_⟩)
    · rw [List.take_succ_cons, walk_cons hwalk]
      exact hdeep
    · rw [Nat.add_right_comm, Nat.add_assoc]

theorem Follows.cons (hwalk : b.walk position scopes = some scopes')
    (hb : Ends (block b index position) env s fun _ t => Follows index env bs (position + 1) scopes' t) :
    Follows index env (b :: bs) position scopes s := by
  refine .bind (hb.imp (fun _ t ht => ht.imp (fun _ u hu => ?_) fun e he => he.cons hwalk) fun _ => .inl)
  rw [walk_cons hwalk]
  exact hu

theorem blocks_follow : ∀ {position : Nat} {scopes : List Nat} {s : LowerState},
    Tracks index env.kind scopes s → position ≠ 0 → scopes.length < maxOpenScopes →
    Follows index env bs position scopes s := by
  induction bs with
  | nil => exact fun h _ _ => .run rfl ⟨_, rfl, h⟩
  | cons b bs ih =>
    intro position scopes s h hposition hroom
    cases hwalk : b.walk position scopes with
    | none => exact .fails (bind_error (block_underflow h hwalk)) (.inr (.inl rfl))
    | some scopes' =>
      by_cases hfull : scopes'.length = maxOpenScopes
      · refine .bind ((block_overflows h hroom hwalk hfull).imp (fun _ _ => False.elim) fun e he => ?_)
        rcases he with he | rfl
        · exact .inl he
        · refine .inr (.inr ⟨0, scopes', Nat.succ_pos _, ?_, hfull, rfl⟩)
          rw [List.take_succ_cons, walk_cons hwalk]
          rfl
      · have hroom' : scopes'.length < maxOpenScopes := by
          have hlength := walk_length hwalk
          omega
        refine .cons hwalk ((block_ends h (fun _ => hposition) hwalk hroom').mono fun _ t ht => ?_)
        exact ih ht (Nat.succ_ne_zero position) hroom'

theorem Heads.follows (index : Nat) (h : Heads env s c) (hbs : bs <+: c.blocks) (hne : bs ≠ []) :
    Follows index env bs 0 [] (reset s) := by
  obtain ⟨b, rest, rfl, hid⟩ := h.head
  obtain ⟨more, hmore⟩ := hbs
  cases bs with
  | nil => exact absurd rfl hne
  | cons =>
    obtain ⟨rfl, -⟩ := List.cons.inj hmore
    refine .cons (walk_head hid) ((hat_ends rfl h.roots hid).mono fun _ t ht => ?_)
    exact blocks_follow ht Nat.one_ne_zero (by decide)

theorem closeChain_roots (hrun : closeChain index env s = .ok u t) : t.scopes.rootScopes = s.scopes.rootScopes := by
  obtain ⟨-, rfl⟩ := closeChain_ok hrun
  rfl

theorem Heads.chain_meets (index : Nat) (h : Heads env s c) :
    Meets (chain index c) env s (fun _ t => t.scopes.rootScopes.size = 1)
      fun e => Misfit index c.blocks 0 [] e ∨ e.cause = .unterminated := by
  refine .of_eq (chain_eq ..) (.bind ((h.follows index (List.prefix_refl _) h.ne_nil).imp ?_ fun _ => .inl))
  rintro _ t ⟨scopes, -, htracks⟩
  cases scopes with
  | nil =>
    obtain ⟨u, hu⟩ := closeChain_balanced htracks
    exact .run hu ((congrArg Array.size (closeChain_roots hu)).trans htracks.roots)
  | cons =>
    obtain ⟨u, hu⟩ := closeChain_unterminated htracks
    exact .fails hu (.inr rfl)

theorem emitAll_meets (code : List Instr) : ∀ s : LowerState,
    Meets (emitAll code) env s (fun _ t => t.scopes = s.scopes ∧ globalsOf t = globalsOf s) fun _ => False := by
  induction code with
  | nil => exact fun s => .run rfl ⟨rfl, rfl⟩
  | cons i code ih => exact fun s => .bind (.run rfl (ih _))

theorem finish_meets (hroots : s.scopes.rootScopes.size = 1) :
    Meets (finish loc) env s (fun _ t => globalsOf t = globalsOf s) fun _ => False := by
  have hclose : Meets (closeRoots loc) env s
      (fun _ t => t.scopes.rootScopes.size = 0 ∧ globalsOf t = globalsOf s) fun _ => False := by
    refine .bind (.scopes (popRootScope_run (back?_of_size hroots)) (.bind (.run rfl ?_)))
    have hleft : s.scopes.rootScopes.pop.size = 0 := by rw [Array.size_pop, hroots]
    show Meets (if _ then pure _ else pure _ : Lower (List Instr)) env _ _ _
    split <;> exact .run rfl ⟨hleft, rfl⟩
  refine .bind (hclose.mono fun code t ht => .bind ((emitAll_meets code t).mono fun _ u hu => ?_))
  have hdepth : u.scopes.rootDepth = 0 := (congrArg Scopes.rootDepth hu.1).trans ht.1
  have hglobals : globalsOf u = globalsOf s := hu.2.trans ht.2
  refine .bind (.run rfl ?_)
  rw [if_neg fun hne => hne hdepth]
  refine .bind (.run rfl ?_)
  cases hkind : env.kind with
  | main | user =>
    refine .bind (.run rfl ?_)
    rw [hkind]
    exact .run rfl hglobals

end Nesting

open Lower Nesting Compile
open Flow (mainEnv)

variable {p : Program}

theorem heads_started {chains : List (Nat × Chain)} {id : String} (hchains : ∀ x ∈ chains, x ∈ chainsHeaded p id)
    (hx : x ∈ chains) (hid : id = headOf env.kind)
    (hroots : s.scopes.rootScopes.size + (bottomOf env.kind 0).length = 1) : Heads env s x.2 := by
  refine ⟨hroots, ?_⟩
  rw [← hid]
  exact (Flow.mem_chainsHeaded (hchains x hx)).2

theorem lowerMain_cases (hmain : env.kind = .main) (hchains : ∀ x ∈ chains, x ∈ chainsHeaded p "on_start") :
    (∃ e rest t, mainChains env chains (mainBegun {}) = (some (e, rest), t) ∧
      errorsOf (lowerMain env chains).1 = e :: (checkChains env rest (globalsOf t)).1 ∧
      (lowerMain env chains).2 = (checkChains env rest (globalsOf t)).2) ∨
    ∃ t, mainChains env chains (mainBegun {}) = (none, t) ∧
      errorsOf (lowerMain env chains).1 = [] ∧ (lowerMain env chains).2 = globalsOf t := by
  cases hrun : mainChains env chains (mainBegun {}) with
  | mk failed t =>
    cases failed with
    | some failure =>
      obtain ⟨e, rest⟩ := failure
      refine .inl ⟨e, rest, t, rfl, ?_⟩
      simp only [lowerMain, beginMain_run, hrun]
      exact ⟨rfl, trivial⟩
    | none =>
      have hroots : t.scopes.rootScopes.size = 1 := mainChains_roots hmain hchains hrun
      cases hfinish : finish ⟨0, [0]⟩ env t with
      | error e u => exact ((finish_meets hroots).error hfinish).elim
      | ok _ u =>
        refine .inr ⟨t, rfl, ?_⟩
        simp only [lowerMain, beginMain_run, hrun, hfinish]
        exact ⟨rfl, (finish_meets hroots).ok hfinish⟩

theorem lowerDefinition_fails
    (hheads : Heads { env with kind := .user d.blockdef } (definitionState env d g) (p.chains.getD d.chain ⟨[]⟩))
    (h : failureOf (lowerDefinition env p d g).1 = some e) :
    ∃ t, chain d.chain (p.chains.getD d.chain ⟨[]⟩) { env with kind := .user d.blockdef }
      (definitionState env d g) = .error e t := by
  obtain ⟨t, hrun⟩ := lowerDefinition_failure h
  cases hchain : chain d.chain (p.chains.getD d.chain ⟨[]⟩) { env with kind := .user d.blockdef }
      (definitionState env d g) with
  | error e' u =>
    rw [bind_error hchain] at hrun
    cases hrun
    exact ⟨_, rfl⟩
  | ok _ u =>
    rw [Flow.bind_run hchain] at hrun
    exact ((finish_meets ((hheads.chain_meets d.chain).ok hchain)).error hrun).elim

/-- The declaration or the lowering of a chain fails with an error, at the time when a compilation comes to it. -/
inductive Program.Fails (p : Program) (keep : Bool) : Nat → CompileError → Prop
  /-- A block that a chain defines is not declared, after the declarations before it. -/
  | declared {c : Chain} {known : List FunctionDecl}
      {earlier : List Definition} {id : String} {e : CompileError} :
      chainsHeaded p "define_block" = before ++ (index, c) :: after → declareFrom p before [] = .ok (known, earlier) →
      namedBlockdef? c = some id → declareBlock p known index id = .error e → Fails p keep index e
  | started
      : declare p = .ok (functions, definitions) → chainsHeaded p "on_start" = before ++ (index, c) :: after →
      mainChains (mainEnv p functions keep) before (mainBegun {}) = (none, s) →
      chain index c (mainEnv p functions keep) s = .error e t → Fails p keep index e
  | checked
      {c : Chain} {s : LowerState} {e first : CompileError} : declare p = .ok (functions, definitions) →
      mainChains (mainEnv p functions keep) (chainsHeaded p "on_start") (mainBegun {}) =
        (some (first, before ++ (index, c) :: after), s) →
      (checkChain (mainEnv p functions keep) index c
        (leftBy (checking (mainEnv p functions keep)) before (globalsOf s))).1 = some e → Fails p keep index e
  | defined :
      declare p = .ok (functions, before ++ d :: after) →
      failureOf (lowerDefinition (mainEnv p functions keep) p d (leftBy (defining (mainEnv p functions keep) p) before
        (lowerMain (mainEnv p functions keep) (chainsHeaded p "on_start")).2)).1 = some e → Fails p keep d.chain e

theorem reports_fails (h : (p.compile keep).Reports e) : ∃ index, p.Fails keep index e := by
  rcases reports_cases h with herr | ⟨functions, definitions, hdecl, hmem⟩
  · obtain ⟨before, index, c, after, known, earlier, id, hchains, hbefore, hid, hfails⟩ := declareFrom_error herr
    exact ⟨index, .declared hchains hbefore hid hfails⟩
  rw [compile_errors hdecl] at hmem
  rcases List.mem_append.mp hmem with hstarted | hdefined
  · have hmain : (mainEnv p functions keep).kind = .main := rfl
    rcases lowerMain_cases hmain (fun x hx => hx) with ⟨first, rest, t, hrun, herrors, -⟩ | ⟨-, -, hnone, -⟩
    · rw [herrors] at hstarted
      rcases List.mem_cons.mp hstarted with rfl | hlater
      · obtain ⟨before, index, c, s, hchains, hbefore, hfails⟩ := mainChains_error hrun
        exact ⟨index, .started hdecl hchains hbefore hfails⟩
      · rw [checkChains_eq] at hlater
        obtain ⟨failure, hfailure, rfl⟩ := List.mem_map.mp hlater
        obtain ⟨before, x, after, rfl, -, hcheck⟩ := mem_failures hfailure
        exact ⟨x.1, .checked hdecl hrun hcheck⟩
    · rw [hnone] at hstarted
      cases hstarted
  · rw [lowerDefinitions_errors] at hdefined
    obtain ⟨failure, hfailure, rfl⟩ := List.mem_map.mp hdefined
    obtain ⟨before, d, after, rfl, -, hfails⟩ := mem_failures hfailure
    exact ⟨d.chain, .defined hdecl hfails⟩

theorem definition_lowered (hdecl : declare p = .ok (functions, definitions)) (hd : d ∈ definitions)
    (h : failureOf (lowerDefinition (mainEnv p functions keep) p d g).1 = some e) :
    ∃ c env s t, p.Lowers keep d.chain c env s ∧ (d.chain, c) ∈ chainsHeaded p "define_block" ∧
      chain d.chain c env s = .error e t := by
  have hlowers : p.Lowers keep d.chain (p.chains.getD d.chain ⟨[]⟩)
      { mainEnv p functions keep with kind := .user d.blockdef }
      (definitionState (mainEnv p functions keep) d g) := .defined hdecl hd
  obtain ⟨t, hrun⟩ := lowerDefinition_fails hlowers.heads h
  exact ⟨_, _, _, t, hlowers, mem_definitions hdecl hd, hrun⟩

theorem Program.Fails.lowered (h : p.Fails keep index e) :
    (∃ c, (index, c) ∈ chainsHeaded p "define_block" ∧ e.loc = some ⟨index, [0]⟩ ∧ e.cause.kind = .user) ∨
      ∃ c env s t, p.Lowers keep index c env s ∧
        (index, c) ∈ chainsHeaded p "on_start" ++ chainsHeaded p "define_block" ∧ chain index c env s = .error e t := by
  cases h with
  | @declared before after _ c _ _ _ _ hchains _ _ hfails =>
    refine .inl ⟨c, ?_, declareBlock_error hfails⟩
    rw [hchains]
    simp
  | started hdecl hchains hbefore hfails =>
    refine .inr ⟨_, _, _, _, .started hdecl hchains (beginMain_run _ _) hbefore, ?_, hfails⟩
    rw [hchains]
    simp
  | @checked _ _ _ _ _ c _ _ _ hdecl hrun hcheck =>
    obtain ⟨front, index', c', s, hchains, -, -⟩ := mainChains_error hrun
    have hself : (index, c) ∈ chainsHeaded p "on_start" := by
      rw [hchains]
      exact List.mem_append_right _ (List.mem_cons_of_mem _ (List.mem_append_right _ List.mem_cons_self))
    obtain ⟨t, ht⟩ := checkChain_failure hcheck
    exact .inr ⟨_, _, _, t, .checked hdecl hself (beginMain_run _ _), List.mem_append_left _ hself, ht⟩
  | defined hdecl hfails =>
    obtain ⟨c, env, s, t, hlowers, hheaded, hrun⟩ :=
      definition_lowered hdecl (List.mem_append_right _ List.mem_cons_self) hfails
    exact .inr ⟨c, env, s, t, hlowers, List.mem_append_right _ hheaded, hrun⟩

/-! ### Stacks -/

def Scopes.openBodies (sc : Scopes Body) : Nat :=
  (sc.control.filter (·.frame ≠ .function)).size

/-- Every open scope has a variable scope, a saved mark and a root scope, the function has one root scope more,
and no frame waits to be pushed or taken. -/
structure Scopes.InStep (sc : Scopes Body) : Prop where
  frames : sc.variableFrames.size = sc.openBodies
  marks : sc.dirtyStack.size = sc.openBodies
  roots : sc.rootScopes.size = sc.openBodies + 1
  opening : sc.opening = none
  closing : sc.closing = none

theorem Nesting.Tracks.openBodies (h : Tracks index kind scopes s) : s.scopes.openBodies = scopes.length := by
  obtain ⟨bodies, hstack, hlocs, hbodies⟩ := h.control
  have hbottom : (bottomOf kind index).filter (·.frame ≠ .function) = [] := by
    cases kind <;> rfl
  have hfilter : bodies.filter (·.frame ≠ .function) = bodies := by
    refine List.filter_eq_self.mpr fun o ho => ?_
    obtain ⟨b, hb⟩ := hbodies o ho
    simp [hb]
  have hlength : (s.scopes.control.toList.filter (·.frame ≠ .function)).length = bodies.length := by
    rw [← List.length_reverse, ← List.filter_reverse]
    show ((Flow.stack s.scopes.control).filter (·.frame ≠ .function)).length = _
    rw [hstack, List.filter_append, hbottom, hfilter, List.append_nil]
  rw [Scopes.openBodies, ← Array.length_toList, Array.toList_filter, hlength]
  simpa using congrArg List.length hlocs

theorem Nesting.Tracks.inStep (h : Tracks index kind scopes s) : s.scopes.InStep where
  frames := by rw [h.openBodies, h.frames]
  marks := by rw [h.openBodies, h.marks]
  roots := by rw [h.openBodies, h.roots]
  opening := h.opening
  closing := h.closing

def Cause.impossible : List String :=
  ["Invalid control state", "Variable stack underflow", "Variable stack overflow", "Control stack overflow",
    "Gc stack underflow"]

theorem Cause.message_internal {c : Cause} (h : c.kind = .internal) (hother : c.isStructural = false) :
    c.message ∉ Cause.impossible ∧ c.message ≠ "Gc stack overflow" := by
  have hstart : ∀ a b : String, a.toList.head? = some 'T' → (a ++ b).toList.head? = some 'T' := fun a b ha => by
    rw [String.toList_append, List.head?_append, ha]
    rfl
  have hfirst : c.message.toList.head? = some 'T' := by
    cases c with
    | noImplementation | noRepresentation => exact hstart _ _ (hstart _ _ (by decide))
    | _ => simp [Cause.kind] at h hother
  have hne : ∀ m : String, m.toList.head? ≠ some 'T' → c.message ≠ m := fun m hm heq => hm (heq ▸ hfirst)
  refine ⟨fun hmem => ?_, hne _ (by decide)⟩
  have hall : ∀ m ∈ Cause.impossible, m.toList.head? ≠ some 'T' := by decide
  exact hall _ hmem hfirst

end Blockwork
