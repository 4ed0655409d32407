import Blockwork.Proofs.Abreast.Blocks
import Blockwork.Proofs.Lockstep

/-! # Verdicts on the chains of a program
Chains that start with the program are lowered into one function until one of them fails, and each in a function
of its own after that. -/

namespace Blockwork

open Lower Compile Nesting Abreast
open Flow

variable {p : Program} {keep : Bool} {env : LowerEnv} {e : CompileError} {functions : List FunctionDecl}
  {definitions : List Definition}

namespace Verdicts

variable {id : String} {x : Nat × Chain} {s t : LowerState}

def pairing (p : Program) (chain : Nat) (env : LowerEnv) : Pairing where
  program := p
  chain := chain
  env := env
  env' := env
  number := fun i => i
  exact := false
  kind := rfl
  paramOwners := rfl
  keepScopes := rfl
  functions := fun name => by simp

theorem headed_paired (env : LowerEnv) (hx : x ∈ chainsHeaded p id)
    (hroots : t.scopes.rootScopes.size = s.scopes.rootScopes.size) (hglobals : globalsOf t = globalsOf s) :
    Paired (pairing p x.1 env) Any (chain x.1 x.2 env s) (chain x.1 x.2 env t) := by
  obtain ⟨hc, b, rest, hblocks, -⟩ := mem_chainsHeaded hx
  have hne : x.2.blocks ≠ [] := by
    rw [hblocks]
    exact List.cons_ne_nil b rest
  exact chain_paired (fun _ => ⟨rfl, hc, hne⟩) hroots hglobals fun he => Bool.noConfusion he

theorem chain_error_points (hx : x ∈ chainsHeaded p id) (hrun : chain x.1 x.2 env s = .error e t) :
    ∃ l, e.loc = some l ∧ l.Points p x.1 := by
  have hpaired := headed_paired env hx (Eq.refl s.scopes.rootScopes.size) rfl
  rw [hrun] at hpaired
  cases hpaired with
  | error hl _ => exact ⟨_, rfl, (hl rfl).2⟩

theorem checkChain_shared (env : LowerEnv) (hx : x ∈ chainsHeaded p id) (hroots : s.scopes.rootScopes.size = 1) :
    (∀ u t, chain x.1 x.2 env s = .ok u t → checkChain env x.1 x.2 (globalsOf s) = (none, globalsOf t)) ∧
      ∀ e t, chain x.1 x.2 env s = .error e t → checkChain env x.1 x.2 (globalsOf s) = (some e, globalsOf t) := by
  have hpaired : Paired (pairing p x.1 env) Any (chain x.1 x.2 env s) (chain x.1 x.2 env (mainBegun (globalsOf s))) :=
    headed_paired env hx hroots.symm rfl
  refine ⟨fun _ t hrun => ?_, fun e t hrun => ?_⟩
  · cases halone : chain x.1 x.2 env (mainBegun (globalsOf s)) with
    | ok _ t' =>
      rw [hrun, halone] at hpaired
      cases hpaired with
      | ok _ hst =>
        rw [checkChain_ok halone]
        exact congrArg (Prod.mk none) hst.globals
    | error e' t' =>
      rw [hrun, halone] at hpaired
      cases hpaired
  · cases halone : chain x.1 x.2 env (mainBegun (globalsOf s)) with
    | ok _ t' =>
      rw [hrun, halone] at hpaired
      cases hpaired
    | error e' t' =>
      rw [hrun, halone] at hpaired
      cases hpaired with
      | error hl hglobals =>
        obtain ⟨rfl, -⟩ := hl rfl
        rw [checkChain_error halone]
        exact congrArg (Prod.mk _) hglobals

theorem mainChains_shared (hmain : env.kind = .main) :
    ∀ {s : LowerState}, (∀ x ∈ chains, x ∈ chainsHeaded p "on_start") → s.scopes.rootScopes.size = 1 →
      (∀ t, mainChains env chains s = (none, t) → checkChains env chains (globalsOf s) = ([], globalsOf t)) ∧
      ∀ e rest t, mainChains env chains s = (some (e, rest), t) → checkChains env chains (globalsOf s) =
        (e :: (checkChains env rest (globalsOf t)).1, (checkChains env rest (globalsOf t)).2) := by
  induction chains with
  | nil =>
    intro s _ _
    refine ⟨fun t h => ?_, fun e rest t h => ?_⟩
    · cases h
      rfl
    · cases h
  | cons x chains ih =>
    intro s hchains hroots
    have hx : x ∈ chainsHeaded p "on_start" := hchains x List.mem_cons_self
    have hheads : Heads env s x.2 :=
      heads_started hchains List.mem_cons_self (by rw [hmain]; rfl) (by rw [hmain]; exact hroots)
    obtain ⟨hok, herror⟩ := checkChain_shared env hx hroots
    obtain ⟨index, c⟩ := x
    rw [mainChains, checkChains]
    cases hrun : chain index c env s with
    | ok u t =>
      obtain ⟨hnone, hsome⟩ := ih (fun y hy => hchains y (List.mem_cons_of_mem _ hy))
        ((hheads.chain_meets index).ok hrun)
      simp only [hok u t hrun]
      refine ⟨fun t' h => ?_, fun e rest t' h => ?_⟩
      · rw [hnone t' h]
        rfl
      · rw [hsome e rest t' h]
        rfl
    | error e t =>
      simp only [herror e t hrun]
      refine ⟨fun t' h => ?_, fun e' rest t' h => ?_⟩
      · cases h
      · cases h
        rfl

theorem lowerMain_shared (hmain : env.kind = .main) (hchains : ∀ x ∈ chains, x ∈ chainsHeaded p "on_start") :
    errorsOf (lowerMain env chains).1 = (checkChains env chains {}).1 ∧
      (lowerMain env chains).2 = (checkChains env chains {}).2 := by
  obtain ⟨hnone, hsome⟩ := mainChains_shared (s := mainBegun {}) hmain hchains rfl
  rcases lowerMain_cases hmain hchains with ⟨e, rest, t, hrun, herrors, hglobals⟩ | ⟨t, hrun, herrors, hglobals⟩
  · have heq := hsome e rest t hrun
    exact ⟨herrors.trans (congrArg Prod.fst heq).symm, hglobals.trans (congrArg Prod.snd heq).symm⟩
  · have heq := hnone t hrun
    exact ⟨herrors.trans (congrArg Prod.fst heq).symm, hglobals.trans (congrArg Prod.snd heq).symm⟩

theorem chainsHeaded_ordered (p : Program) (id : String) : ((chainsHeaded p id).map Prod.fst).Pairwise (· < ·) := by
  have hall : ((p.chains.zipIdx.map fun x => (x.2, x.1)).map Prod.fst).Pairwise (· < ·) := by
    rw [List.map_map]
    show (p.chains.zipIdx.map Prod.snd).Pairwise (· < ·)
    rw [List.zipIdx_map_snd]
    exact List.pairwise_lt_range'
  exact hall.sublist (List.filter_sublist.map Prod.fst)

theorem definitions_ordered (hdecl : declare p = .ok (functions, definitions)) :
    (definitions.map Definition.chain).Pairwise (· < ·) := by
  rw [Flow.declareFrom_chains hdecl]
  exact chainsHeaded_ordered p "define_block"

theorem headed_once (h : index ∈ (chainsHeaded p id).map Prod.fst) (h' : index ∈ (chainsHeaded p id').map Prod.fst) :
    id = id' := by
  obtain ⟨⟨i, c⟩, hx, rfl⟩ := List.mem_map.mp h
  obtain ⟨⟨j, c'⟩, hy, rfl⟩ := List.mem_map.mp h'
  obtain ⟨hc, b, rest, rfl, rfl⟩ := mem_chainsHeaded hx
  obtain ⟨hc', b', rest', rfl, rfl⟩ := mem_chainsHeaded hy
  cases hc.symm.trans hc'
  rfl

end Verdicts

/-! ### Programs -/

/-- What a compilation says of the chains of a program whose blocks are declared: the errors of chains that start with the
program and those of chains that define a block, each with the position of its chain. -/
structure Program.Verdicts (p : Program) (keep : Bool) (functions : List FunctionDecl) (definitions : List Definition)
    (started defined : List (Nat × CompileError)) : Prop where
  recorded : (p.compile keep).errors = (started ++ defined).map Prod.snd
  single : ((started ++ defined).map Prod.fst).Nodup
  startedOrder : (started.map Prod.fst).Pairwise (· < ·)
  definedOrder : (defined.map Prod.fst).Pairwise (· < ·)
  startedHeads : ∀ x ∈ started, ∃ c, (x.1, c) ∈ chainsHeaded p "on_start"
  definedHeads : ∀ x ∈ defined, ∃ c, (x.1, c) ∈ chainsHeaded p "define_block"
  located : ∀ x ∈ started ++ defined, ∃ l, x.2.loc = some l ∧ l.chain = x.1
  /-- A chain that starts with the program fails as it does alone, with the variables that the chains before it leave,
  each of them alone too. -/
  alone : ∀ before index c after e, chainsHeaded p "on_start" = before ++ (index, c) :: after →
    ((index, e) ∈ started ↔
      (checkChain (mainEnv p functions keep) index c (leftBy (checking (mainEnv p functions keep)) before {})).1 = some e)
  /-- In the function that chains share, a chain finds these variables and has that outcome. -/
  shared : ∀ before index c after s, chainsHeaded p "on_start" = before ++ (index, c) :: after →
    mainChains (mainEnv p functions keep) before (mainBegun {}) = (none, s) →
    globalsOf s = leftBy (checking (mainEnv p functions keep)) before {} ∧
    ∀ e, (∃ t, chain index c (mainEnv p functions keep) s = .error e t) ↔ (index, e) ∈ started
  apart : ∀ before d after e, definitions = before ++ d :: after → ((d.chain, e) ∈ defined ↔
      failureOf (lowerDefinition (mainEnv p functions keep) p d (leftBy (defining (mainEnv p functions keep) p) before
        (leftBy (checking (mainEnv p functions keep)) (chainsHeaded p "on_start") {}))).1 = some e)
  first : ∀ e es, (p.compile keep).errors = e :: es → (p.compile keep).result = .error e
  accepted : (∃ code, (p.compile keep).result = .ok code) ↔ (p.compile keep).errors = []

namespace Verdicts

def startFailures (p : Program) (env : LowerEnv) : List (Nat × CompileError) :=
  failures (checking env) Prod.fst (chainsHeaded p "on_start") {}

def defineFailures (p : Program) (env : LowerEnv) (definitions : List Definition) : List (Nat × CompileError) :=
  failures (defining env p) Definition.chain definitions (leftBy (checking env) (chainsHeaded p "on_start") {})

theorem startFailures_points (hx : x ∈ startFailures p env) :
    x.1 ∈ (chainsHeaded p "on_start").map Prod.fst ∧ ∃ l, x.2.loc = some l ∧ l.Points p x.1 := by
  obtain ⟨before, y, after, hchains, hplace, hfails⟩ := mem_failures hx
  have hy : y ∈ chainsHeaded p "on_start" := by
    rw [hchains]
    simp
  obtain ⟨t, hrun⟩ := checkChain_failure hfails
  rw [← hplace]
  exact ⟨List.mem_map_of_mem hy, chain_error_points hy hrun⟩

theorem defineFailures_points (hdecl : declare p = .ok (functions, definitions))
    (hx : x ∈ defineFailures p (mainEnv p functions keep) definitions) :
    x.1 ∈ (chainsHeaded p "define_block").map Prod.fst ∧ ∃ l, x.2.loc = some l ∧ l.Points p x.1 := by
  obtain ⟨before, d, after, rfl, hplace, hfails⟩ := mem_failures hx
  obtain ⟨c, env, s, t, -, hheaded, hrun⟩ :=
    definition_lowered hdecl (List.mem_append_right _ List.mem_cons_self) hfails
  rw [← hplace]
  exact ⟨List.mem_map_of_mem hheaded, chain_error_points hheaded hrun⟩

theorem startFailures_ordered : ((startFailures p env).map Prod.fst).Pairwise (· < ·) :=
  (chainsHeaded_ordered p "on_start").sublist (failures_sublist _)

theorem defineFailures_ordered (hdecl : declare p = .ok (functions, definitions)) :
    ((defineFailures p env definitions).map Prod.fst).Pairwise (· < ·) :=
  (definitions_ordered hdecl).sublist (failures_sublist _)

theorem failures_nodup (hdecl : declare p = .ok (functions, definitions)) :
    ((startFailures p (mainEnv p functions keep) ++ defineFailures p (mainEnv p functions keep) definitions).map
      Prod.fst).Nodup := by
  rw [List.map_append, List.nodup_append]
  refine ⟨startFailures_ordered.imp Nat.ne_of_lt, (defineFailures_ordered hdecl).imp Nat.ne_of_lt, ?_⟩
  rintro i hi j hj rfl
  obtain ⟨x, hx, rfl⟩ := List.mem_map.mp hi
  obtain ⟨y, hy, hxy⟩ := List.mem_map.mp hj
  have hids : "on_start" = "define_block" :=
    headed_once (startFailures_points hx).1 (hxy ▸ (defineFailures_points hdecl hy).1)
  exact absurd hids (by decide)

theorem mem_startFailures_iff (hchains : chainsHeaded p "on_start" = before ++ (index, c) :: after) :
    (index, e) ∈ startFailures p env ↔ (checkChain env index c (leftBy (checking env) before {})).1 = some e := by
  have hnodup : ((chainsHeaded p "on_start").map Prod.fst).Nodup :=
    (chainsHeaded_ordered p "on_start").imp Nat.ne_of_lt
  rw [hchains] at hnodup
  rw [startFailures, hchains]
  exact mem_failures_iff hnodup

theorem mem_defineFailures_iff (hdecl : declare p = .ok (functions, before ++ d :: after)) :
    (d.chain, e) ∈ defineFailures p env (before ++ d :: after) ↔
      failureOf (lowerDefinition env p d (leftBy (defining env p) before
        (leftBy (checking env) (chainsHeaded p "on_start") {}))).1 = some e :=
  mem_failures_iff ((definitions_ordered hdecl).imp Nat.ne_of_lt)

theorem shared_outcome (hmain : env.kind = .main) (hchains : chainsHeaded p "on_start" = before ++ (index, c) :: after)
    (hbefore : mainChains env before (mainBegun {}) = (none, s)) : globalsOf s = leftBy (checking env) before {} ∧
      ∀ e, (∃ t, chain index c env s = .error e t) ↔ (index, e) ∈ startFailures p env := by
  have hmem : ∀ x ∈ before, x ∈ chainsHeaded p "on_start" := fun x hx => by
    rw [hchains]
    exact List.mem_append_left _ hx
  have hself : (index, c) ∈ chainsHeaded p "on_start" := by
    rw [hchains]
    simp
  have hglobals : globalsOf s = leftBy (checking env) before {} := by
    have hone := (mainChains_shared (s := mainBegun {}) hmain hmem rfl).1 s hbefore
    rw [checkChains_eq] at hone
    exact (congrArg Prod.snd hone).symm
  obtain ⟨hok, herror⟩ := checkChain_shared env hself (mainChains_roots hmain hmem hbefore)
  refine ⟨hglobals, fun e => ?_⟩
  rw [mem_startFailures_iff hchains, ← hglobals]
  constructor
  · rintro ⟨t, hrun⟩
    rw [herror e t hrun]
  · intro hfails
    cases hrun : chain index c env s with
    | ok u t =>
      rw [hok u t hrun] at hfails
      cases hfails
    | error e' t =>
      rw [herror e' t hrun] at hfails
      cases hfails
      exact ⟨t, rfl⟩

theorem compile_failures (hdecl : declare p = .ok (functions, definitions)) :
    (p.compile keep).errors = (startFailures p (mainEnv p functions keep) ++
      defineFailures p (mainEnv p functions keep) definitions).map Prod.snd := by
  have hmain : (mainEnv p functions keep).kind = .main := rfl
  obtain ⟨herrors, hglobals⟩ := lowerMain_shared (p := p) hmain fun x hx => hx
  rw [compile_errors hdecl, lowerDefinitions_errors, herrors, hglobals, checkChains_eq, List.map_append]
  rfl

end Verdicts

open Verdicts

/-- A failing chain neither hides nor alters what a compilation says of the others. -/
theorem Program.verdicts_independent (hdecl : declare p = .ok (functions, definitions)) :
    ∃ started defined, p.Verdicts keep functions definitions started defined := by
  refine ⟨startFailures p (mainEnv p functions keep), defineFailures p (mainEnv p functions keep) definitions, ?_⟩
  obtain ⟨hnone, hfirst⟩ := @compile_result p keep functions definitions hdecl
  exact {
    recorded := compile_failures hdecl
    single := failures_nodup hdecl
    startedOrder := startFailures_ordered
    definedOrder := defineFailures_ordered hdecl
    startedHeads := fun x hx => by
      obtain ⟨y, hy, hxy⟩ := List.mem_map.mp (startFailures_points hx).1
      exact ⟨y.2, hxy ▸ hy⟩
    definedHeads := fun x hx => by
      obtain ⟨y, hy, hxy⟩ := List.mem_map.mp (defineFailures_points hdecl hx).1
      exact ⟨y.2, hxy ▸ hy⟩
    located := fun x hx => by
      rcases List.mem_append.mp hx with hx | hx
      · obtain ⟨-, l, hl, hpoints⟩ := startFailures_points hx
        exact ⟨l, hl, hpoints.1⟩
      · obtain ⟨-, l, hl, hpoints⟩ := defineFailures_points hdecl hx
        exact ⟨l, hl, hpoints.1⟩
    alone := fun _ _ _ _ _ hchains => mem_startFailures_iff hchains
    shared := fun _ _ _ _ _ hchains hbefore => shared_outcome rfl hchains hbefore
    apart := fun _ _ _ _ hdefinitions => by
      subst hdefinitions
      exact mem_defineFailures_iff hdecl
    first := hfirst
    accepted := by
      refine ⟨fun h => ?_, hnone⟩
      obtain ⟨code, hcode⟩ := h
      cases herrors : (p.compile keep).errors with
      | nil => rfl
      | cons e es =>
        rw [hfirst e es herrors] at hcode
        cases hcode }

/-- Three chains that start with the program. -/
def threeStarts : Program :=
  ⟨[⟨[.mk "on_start" [], .mk "decl_var" [.text "n", .text "1"], .mk "get_var" [.text "m"]]⟩,
    ⟨[.mk "on_start" [], .mk "println" [.block (.mk "get_var" [.text "n"])]]⟩,
    ⟨[.mk "on_start" [], .mk "end" []]⟩], []⟩

/-- The second chain is not among those that fail, though the first has failed before it. -/
theorem Program.verdicts_independent_three : declare threeStarts = .ok ([], []) ∧ threeStarts.compile.errors =
      [⟨.unknownVariable "m", some ⟨0, [2]⟩⟩, ⟨.controlUnderflow, some ⟨2, [1]⟩⟩] ∧
    ∃ started defined, threeStarts.Verdicts false [] [] started defined := by
  have hdecl : declare threeStarts = .ok ([], []) := rfl
  exact ⟨hdecl, by decide +kernel, Program.verdicts_independent hdecl⟩

theorem Program.Fails.points (h : p.Fails keep index e) :
    ∃ c, (index, c) ∈ chainsHeaded p "on_start" ++ chainsHeaded p "define_block" ∧
      ∃ l, e.loc = some l ∧ l.Points p index := by
  rcases h.lowered with ⟨c, hheaded, hloc, -⟩ | ⟨c, env, s, t, -, hheaded, hrun⟩
  · refine ⟨c, List.mem_append_right _ hheaded, ⟨index, [0]⟩, hloc, rfl, ?_⟩
    obtain ⟨hc, b, rest, hblocks, -⟩ := mem_chainsHeaded hheaded
    exact ⟨b, by simp_all [Location.resolve, Location.descend]⟩
  · rcases List.mem_append.mp hheaded with hx | hx
    · exact ⟨c, hheaded, chain_error_points hx hrun⟩
    · exact ⟨c, hheaded, chain_error_points hx hrun⟩

/-- Every error points at a block, in the chain that fails. -/
theorem Program.errors_point_at_blocks (h : (p.compile keep).Reports e) :
    ∃ l b c, e.loc = some l ∧ l.resolve p = some b ∧
      (l.chain, c) ∈ chainsHeaded p "on_start" ++ chainsHeaded p "define_block" ∧ p.Fails keep l.chain e := by
  obtain ⟨index, hfails⟩ := reports_fails h
  obtain ⟨c, hc, l, hl, rfl, b, hb⟩ := hfails.points
  exact ⟨l, b, c, hl, hb, hc, hfails⟩

/-- A definition that reads an unknown variable deep in the arguments of a block, inside a scope that nothing closes. -/
def deepFailure : Program :=
  ⟨[⟨[.mk "end" []]⟩, ⟨[.definition "f", .mk "if" [.block (.mk "true" [])],
      .mk "println" [.block (.mk "join" [.text "a", .block (.mk "get_var" [.text "x"])])]]⟩],
    [⟨"f", []⟩]⟩

/-- The error is at the innermost block. -/
theorem Program.errors_point_at_blocks_deep :
    deepFailure.compile.Reports ⟨.unknownVariable "x", some ⟨1, [2, 0, 1]⟩⟩ ∧
    ∃ l b c, some (⟨1, [2, 0, 1]⟩ : Location) = some l ∧ l.resolve deepFailure = some b ∧
      (l.chain, c) ∈ chainsHeaded deepFailure "on_start" ++ chainsHeaded deepFailure "define_block" ∧
      deepFailure.Fails false l.chain ⟨.unknownVariable "x", some ⟨1, [2, 0, 1]⟩⟩ := by
  have hreports : deepFailure.compile.Reports ⟨.unknownVariable "x", some ⟨1, [2, 0, 1]⟩⟩ := .inr (by decide +kernel)
  exact ⟨hreports, Program.errors_point_at_blocks hreports⟩

end Blockwork
