import Blockwork.Proofs.Tracing.Scopes

/-! # Chains

The blocks of a chain one after the other, and the chains of a function. Between two chains of the main
function no scope is open. -/

namespace Blockwork.Tracing

open Lower Typing Instr
open Flow
open Trimming

variable {env : LowerEnv} {W W' : World} {F F' F₀ : Facts} {B : Bindings} {s t : LowerState}

theorem hat_advances {hat : Hat} (h : Open env F₀ base W F B s) (hloc : loc.path ≠ []) (hmain : env.kind = .main)
    (hrun : Lower.hat hat least b loc env s = .ok x t) :
    ∃ W' F', Advances env F₀ base (marksOfArguments b.args loc 0 env s) W B W' F' t := by
  obtain ⟨rfl, argv, s₁, s₂, pushed, hargs, -, hsettle, hpush⟩ := (hat_iff hmain).mp hrun
  obtain ⟨W₁, F₁, hmarked, -, hquiet⟩ := arguments_marked b.args hloc h.fits hargs
  have hadvances := h.marked hmarked fun m hm => (hquiet m hm).isNote
  obtain ⟨W₂, F₂, hext⟩ := settle_extends hmarked.extends_.fits hsettle
  have hsettled := hadvances.step hext
  cases (tryScopes_run (pushOpened_none hsettled.state.opening)).symm.trans hpush
  exact ⟨W₂, F₂, hsettled⟩

theorem plainBlock_advances (h : Open env F₀ base W F B s) (hloc : loc.path ≠ [])
    (hbase : env.kind = .main → base = []) (hresolve : resolve b.id loc env s = .ok resolved s) (hrun : (do
      let argv ← arguments b.args loc 0
      let _ ← applyPlain resolved b.id argv loc
      poll : Lower Unit) env s = .ok x t) : ∃ W' F', Advances env F₀ base (marksOfPlain b loc env s) W B W' F' t := by
  obtain ⟨id, args⟩ := b
  obtain ⟨argv, s₁, hargs, hrest⟩ := bind_ok hrun
  obtain ⟨v, s₂, happly, hpoll⟩ := bind_ok hrest
  have hargs : arguments args loc 0 env s = .ok argv s₁ := hargs
  have hresolve : resolve id loc env s = .ok resolved s := hresolve
  obtain ⟨W₁, F₁, hmarked, hhas, hquiet⟩ := arguments_marked args hloc h.fits hargs
  obtain ⟨W₂, F₂, hplain, -, hmarks⟩ := plain_marked hresolve hargs hmarked hhas (fun _ => h.level hbase) happly
  have hnotes : ∀ m ∈ marksOfPlain (.mk id args) loc env s, m.IsNote := by
    intro m hm
    rw [hmarks] at hm
    rcases List.mem_append.mp hm with hm | hm
    · exact (hquiet m hm).isNote
    · obtain rfl := List.mem_singleton.mp hm
      trivial
  have hpolled : Straight (settingOf env) false [] poll fun _ => [] := poll_straight
  obtain ⟨W₃, F₃, hext, -⟩ := hplain.extends_.fits.straight hpolled .nil hpoll
  exact ⟨W₃, F₃, (h.marked hplain hnotes).step hext⟩

theorem block_advances {index position : Nat} (h : Open env F₀ base W F B s)
    (hfunctions : ∀ o ∈ base, o.frame = .function) (hbase : env.kind = .main → base = [])
    (hpos : position = 0 → env.kind = .main) (hrun : block b index position env s = .ok x t) :
    ∃ W' F', Advances env F₀ base (marksOfBlock b index position env s) W B W' F' t := by
  have hloc : (⟨index, [position]⟩ : Location).path ≠ [] := List.cons_ne_nil _ _
  obtain ⟨resolved, s₁, hresolve, hrest⟩ := bind_ok hrun
  obtain ⟨rfl, -⟩ := resolve_ok hresolve
  rw [marksOfBlock, seen_ok hresolve]
  cases resolved with
  | function | parameter => exact plainBlock_advances h hloc hbase hresolve hrest
  | builtin builtin least =>
    cases builtin with
    | operation op => exact plainBlock_advances h hloc hbase hresolve hrest
    | hat hat =>
      by_cases hzero : position = 0
      · subst hzero
        exact hat_advances h hloc (hpos rfl) hrest
      · simp only [hzero, ne_eq, not_false_eq_true, if_true] at hrest
        exact (fail_ok hrest).elim
    | opener o =>
      exact beginScope_advances h hloc .nil (fun argv => openScope_opening o argv _) hrest
    | continuation c =>
      obtain ⟨handled, s₂, hclose, hbegin⟩ := bind_ok hrest
      obtain ⟨W₁, F₁, hclosed, hhas⟩ := closeScope_advances h hfunctions hclose
      obtain ⟨W₂, F₂, hopened⟩ := beginScope_advances hclosed.state hloc hhas
        (fun argv => openContinuation_opening c handled argv _) hbegin
      refine ⟨W₂, F₂, ?_⟩
      simp only [seen_ok hclose]
      exact hclosed.trans hopened
    | close =>
      obtain ⟨v, s₂, hclose, hlast⟩ := bind_ok hrest
      obtain ⟨-, rfl⟩ := pure_ok hlast
      obtain ⟨W₁, F₁, hclosed, -⟩ := closeScope_advances h hfunctions hclose
      exact ⟨W₁, F₁, hclosed⟩

theorem blocks_advances (hfunctions : ∀ o ∈ base, o.frame = .function) (hbase : env.kind = .main → base = []) :
    ∀ (bs : List Block) (position : Nat) {W : World} {F : Facts}
    {B : Bindings} {s t : LowerState}, (position = 0 → env.kind = .main) → Open env F₀ base W F B s →
    blocks index bs position env s = .ok x t →
    ∃ W' F', Advances env F₀ base (marksOfBlocks index bs position env s) W B W' F' t
  | [], _, W, F, _, _, _, _, h, hrun => by
    obtain ⟨-, rfl⟩ := pure_ok hrun
    exact ⟨W, F, h, (List.append_nil _).symm, (List.append_nil _).symm, trivial⟩
  | b :: rest, position, _, _, _, _, _, hpos, h, hrun => by
    obtain ⟨⟨⟩, s₁, hblock, hrest⟩ := bind_ok hrun
    obtain ⟨W₁, F₁, hfirst⟩ := block_advances h hfunctions hbase hpos hblock
    obtain ⟨W₂, F₂, hmore⟩ := blocks_advances hfunctions hbase rest (position + 1)
      (fun hzero => absurd hzero (Nat.succ_ne_zero _)) hfirst.state hrest
    refine ⟨W₂, F₂, ?_⟩
    rw [marksOfBlocks, seen_ok hblock]
    exact hfirst.trans hmore

structure Resting (env : LowerEnv) (F₀ : Facts) (W : World) (F : Facts) (B : Bindings) (s : LowerState) :
    Prop where
  fits : Fits env W F B s
  blocks : B.blocks = []
  params : Params env W.kinds F₀.written
  segment : ∃ pre G seg a, s.code.toList = pre ++ seg ∧
    (stack s.scopes.rootScopes).map RootScope.start = [pre.length] ∧ Scoped W 0 F₀ pre G ∧
    Scoped W (widthIn pre) G seg F ∧ Ascends F₀.written.length pre a ∧ Ascends a seg s.nextReg

structure Lowers (env : LowerEnv) (F₀ : Facts) (ms : List Mark) (W : World) (B : Bindings) (W' : World)
    (F' : Facts) (t : LowerState) : Prop where
  state : Resting env F₀ W' F' (B.afterAll ms) t
  accesses : W'.accesses = W.accesses ++ B.accesses ms
  values : W'.values = W.values ++ valuesOf ms
  tells : B.Tells ms

theorem Lowers.trans (h : Lowers env F₀ ms W B W' F' t) (h' : Lowers env F₀ ms' W' (B.afterAll ms) W'' F'' u) :
    Lowers env F₀ (ms ++ ms') W B W'' F'' u := by
  refine ⟨?_, ?_, ?_, h.tells.append h'.tells⟩
  · rw [Bindings.afterAll_append]
    exact h'.state
  · rw [h'.accesses, h.accesses, Bindings.accesses_append, List.append_assoc]
  · rw [h'.values, h.values, valuesOf_append, List.append_assoc]

theorem Open.rest (h : Open env F₀ base W F B s) (hrun : closeChain index env s = .ok x t) :
    Resting env F₀ W F B t := by
  obtain ⟨hcloses, rfl⟩ := closeChain_ok hrun
  obtain ⟨pre, G, seg, a, hcode, hwithin, hseg, hascends⟩ := h.segment
  generalize hcontrol : stack s.scopes.control = control at hwithin
  generalize houts : outerLocals B.blocks B.own = outs at hwithin
  generalize hstarts : (stack s.scopes.rootScopes).map RootScope.start = starts at hwithin
  cases hwithin with
  | scope _ _ _ _ _ _ _ =>
    rw [back?_of_stack hcontrol, closesChain_body] at hcloses
    cases hcloses
  | outermost hpre hfirst =>
    have hblocks : B.blocks = [] := by
      cases hB : B.blocks with
      | nil => rfl
      | cons inner outer =>
        rw [hB] at houts
        cases houts
    exact ⟨h.fits.kept ⟨⟨rfl, rfl, rfl, rfl, rfl, rfl⟩, rfl, rfl⟩, hblocks, h.params, pre, G, seg, a, hcode,
      hstarts, hpre, hseg, hfirst, hascends⟩

theorem Resting.reset (h : Resting env F₀ W F B s) (hmain : env.kind = .main) :
    Open env F₀ [] W F B { s with scopes := s.scopes.resetChain } := by
  have hown : B.own = [] := h.fits.own (by rw [h.fits.kind, hmain]; rfl)
  have hlocals : B.locals = [] := by
    rw [Bindings.locals, h.blocks, hown]
    rfl
  have hnone : F.locals = [] := by
    rw [h.fits.facts, hlocals]
    rfl
  obtain ⟨pre, G, seg, a, hcode, hroots, hpre, hseg, hfirst, hascends⟩ := h.segment
  refine ⟨?_, rfl, h.params, pre, G, seg, a, hcode, ?_, hseg, hascends⟩
  · exact { h.fits with
      locals := by
        rw [hlocals]
        exact .nil
      frames := by
        rw [h.blocks]
        rfl
      used := by
        rw [hnone]
        rfl
      room := Nat.zero_le _ }
  · rw [h.blocks]
    show Within W F₀ [] s.cells [] [] ((stack s.scopes.rootScopes).map RootScope.start) pre G a
    rw [hroots]
    exact .outermost hpre hfirst

theorem chain_lowers (h : Resting env F₀ W F B s) (hmain : env.kind = .main) (hrun : chain index c env s = .ok x t) :
    ∃ W' F', Lowers env F₀ (marksOfChain index c env s) W B W' F' t := by
  obtain ⟨⟨⟩, s₁, hreset, hrest⟩ := bind_ok hrun
  obtain rfl := onScopes_ok hreset
  obtain ⟨⟨⟩, s₂, hblocks, hclose⟩ := bind_ok hrest
  obtain ⟨W', F', hadvances⟩ := blocks_advances (List.forall_mem_nil _) (fun _ => rfl) c.blocks 0 (fun _ => hmain)
    (h.reset hmain) hblocks
  exact ⟨W', F', hadvances.state.rest hclose, hadvances.accesses, hadvances.values, hadvances.tells⟩

theorem mainChains_lowers (hmain : env.kind = .main) : ∀ {chains : List (Nat × Chain)} {W : World} {F : Facts}
    {B : Bindings} {s t : LowerState}, Resting env F₀ W F B s → Compile.mainChains env chains s = (none, t) →
    ∃ W' F', Lowers env F₀ (marksOfChains chains env s) W B W' F' t
  | [], W, F, _, _, _, h, hrun => by
    cases hrun
    exact ⟨W, F, h, (List.append_nil _).symm, (List.append_nil _).symm, trivial⟩
  | (index, c) :: rest, _, _, _, s, _, h, hrun => by
    obtain ⟨s₁, hchain, hrest⟩ := mainChains_cons hrun
    obtain ⟨W₁, F₁, hfirst⟩ := chain_lowers h hmain hchain
    obtain ⟨W₂, F₂, hmore⟩ := mainChains_lowers hmain hfirst.state hrest
    refine ⟨W₂, F₂, ?_⟩
    rw [marksOfChains, seen_ok hchain]
    exact hfirst.trans hmore

end Blockwork.Tracing
