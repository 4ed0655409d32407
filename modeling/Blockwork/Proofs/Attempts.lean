import Blockwork.Proofs.Lowering.Programs

/-! # Attempts of a compilation
Every error that a compilation reports comes from declaring a block or lowering a chain, after the attempts before
it. -/

namespace Blockwork

open Lower

def Compilation.Reports (c : Compilation) (e : CompileError) : Prop :=
  c.result = .error e ∨ e ∈ c.errors

namespace Compile

variable {p : Program} {env : LowerEnv} {e : CompileError}

theorem declareFrom_error : ∀ {chains : List (Nat × Chain)} {known : List FunctionDecl},
    declareFrom p chains known = .error e →
    ∃ before index c after functions definitions id, chains = before ++ (index, c) :: after ∧
      declareFrom p before known = .ok (functions, definitions) ∧ namedBlockdef? c = some id ∧
      declareBlock p functions index id = .error e
  | [], _, h => by cases h
  | (index, c) :: rest, known, h => by
    rw [declareFrom] at h
    cases hname : namedBlockdef? c with
    | none =>
      simp only [hname] at h
      cases hrest : declareFrom p rest known with
      | ok =>
        rw [hrest] at h
        cases h
      | error =>
        rw [hrest] at h
        cases h
        obtain ⟨before, index', c', after, functions, definitions, id, rfl, hbefore, hid, hfails⟩ :=
          declareFrom_error hrest
        refine ⟨(index, c) :: before, index', c', after, functions, ⟨index, ""⟩ :: definitions, id, rfl, ?_, hid, hfails⟩
        simp only [declareFrom, hname, hbefore]
        rfl
    | some id =>
      simp only [hname] at h
      cases hd : declareBlock p known index id with
      | error =>
        rw [hd] at h
        cases h
        exact ⟨[], index, c, rest, known, [], id, rfl, rfl, hname, hd⟩
      | ok d =>
        cases hrest : declareFrom p rest (known ++ [d]) with
        | ok =>
          simp only [hd, hrest, bind, Except.bind] at h
          cases h
        | error =>
          simp only [hd, hrest, bind, Except.bind] at h
          cases h
          obtain ⟨before, index', c', after, functions, definitions, id', rfl, hbefore, hid, hfails⟩ :=
            declareFrom_error hrest
          refine ⟨(index, c) :: before, index', c', after, functions, ⟨index, id⟩ :: definitions, id', rfl, ?_, hid,
            hfails⟩
          simp only [declareFrom, hname, hd, hbefore, bind, Except.bind]
          rfl

theorem declareBlock_error {id : String} (h : declareBlock p known index id = .error e) :
    e.loc = some ⟨index, [0]⟩ ∧ e.cause.kind = .user := by
  unfold declareBlock at h
  split at h
  · cases h
    exact ⟨rfl, rfl⟩
  · split at h
    · cases h
      exact ⟨rfl, rfl⟩
    · split at h
      · cases h
        exact ⟨rfl, rfl⟩
      · cases h

theorem mainChains_error : ∀ {chains : List (Nat × Chain)}
    {s : LowerState}, mainChains env chains s = (some (e, rest), t) →
    ∃ before index c u, chains = before ++ (index, c) :: rest ∧ mainChains env before s = (none, u) ∧
      chain index c env u = .error e t := by
  intro chains
  induction chains with
  | nil =>
    intro s h
    cases h
  | cons x chains ih =>
    obtain ⟨index, c⟩ := x
    intro s h
    rw [mainChains] at h
    cases hchain : chain index c env s with
    | error =>
      rw [hchain] at h
      cases h
      exact ⟨[], index, c, s, rfl, rfl, hchain⟩
    | ok =>
      rw [hchain] at h
      obtain ⟨before, index', c', v, rfl, hbefore, hfails⟩ := ih h
      refine ⟨(index, c) :: before, index', c', v, rfl, ?_, hfails⟩
      rw [mainChains, hchain]
      exact hbefore

theorem checkChain_ok (h : chain index c env (mainBegun g) = .ok () s) :
    checkChain env index c g = (none, globalsOf s) := by
  have hrun : (do beginMain; chain index c : Lower Unit) env (startState g 0) = .ok () s := h
  simp only [checkChain, hrun]

theorem checkChain_error (h : chain index c env (mainBegun g) = .error e s) :
    checkChain env index c g = (some e, globalsOf s) := by
  have hrun : (do beginMain; chain index c : Lower Unit) env (startState g 0) = .error e s := h
  simp only [checkChain, hrun]

theorem checkChain_failure (h : (checkChain env index c g).1 = some e) :
    ∃ t, chain index c env (mainBegun g) = .error e t := by
  cases hrun : chain index c env (mainBegun g) with
  | ok =>
    rw [checkChain_ok hrun] at h
    cases h
  | error e' t =>
    rw [checkChain_error hrun] at h
    cases h
    exact ⟨t, rfl⟩

def failureOf {α : Type} : Except CompileError α → Option CompileError
  | .ok _ => none
  | .error e => some e

def definitionState (env : LowerEnv) (d : Definition) (g : Globals) : LowerState :=
  startState g (match findFunction? env.functions d.blockdef with
    | some (_, f) => f.params.length
    | none => 0)

theorem lowerDefinition_failure (h : failureOf (lowerDefinition env p d g).1 = some e) :
    ∃ t, (do chain d.chain (p.chains.getD d.chain ⟨[]⟩); finish ⟨d.chain, [0]⟩ : Lower Unit)
      { env with kind := .user d.blockdef } (definitionState env d g) = .error e t := by
  unfold lowerDefinition at h
  dsimp only at h
  split at h
  · cases h
  · next hrun =>
    cases h
    exact ⟨_, hrun⟩

/-! ### One after another -/

abbrev Attempt (α : Type) := α → Globals → Option CompileError × Globals

section Attempts

variable {α : Type} {attempt : Attempt α} {place : α → Nat} {x : α} {xs : List α}

/-- Variables of the program that are left by attempts one after another. -/
def leftBy (attempt : Attempt α) (xs : List α) (g : Globals) : Globals :=
  xs.foldl (fun g x => (attempt x g).2) g

def failures (attempt : Attempt α) (place : α → Nat) : List α → Globals → List (Nat × CompileError)
  | [], _ => []
  | x :: xs, g => (attempt x g).1.toList.map (place x, ·) ++ failures attempt place xs (attempt x g).2

theorem mem_failures : ∀ {g : Globals}, (i, e) ∈ failures attempt place xs g →
    ∃ before x after, xs = before ++ x :: after ∧ place x = i ∧ (attempt x (leftBy attempt before g)).1 = some e := by
  induction xs with
  | nil => exact fun h => absurd h List.not_mem_nil
  | cons x xs ih =>
    intro g h
    rcases List.mem_append.mp h with hhead | htail
    · obtain ⟨e', he', heq⟩ := List.mem_map.mp hhead
      cases heq
      exact ⟨[], x, xs, rfl, rfl, Option.mem_toList.mp he'⟩
    · obtain ⟨before, y, after, rfl, hplace, hfails⟩ := ih htail
      exact ⟨x :: before, y, after, rfl, hplace, hfails⟩

theorem failures_sublist : ∀ g : Globals, ((failures attempt place xs g).map Prod.fst).Sublist (xs.map place) := by
  induction xs with
  | nil => exact fun _ => .slnil
  | cons x xs ih =>
    intro g
    rw [failures, List.map_append, List.map_cons]
    cases (attempt x g).1 with
    | none => exact .cons _ (ih _)
    | some => exact .cons_cons _ (ih _)

theorem mem_failures_iff (hnodup : ((before ++ x :: after).map place).Nodup) : ∀ {g : Globals},
    (place x, e) ∈ failures attempt place (before ++ x :: after) g ↔
      (attempt x (leftBy attempt before g)).1 = some e := by
  induction before with
  | nil =>
    intro g
    obtain ⟨hfirst, -⟩ := List.nodup_cons.mp hnodup
    have hlater : (place x, e) ∉ failures attempt place after (attempt x g).2 := fun hmem =>
      hfirst ((failures_sublist _).subset (List.mem_map_of_mem hmem))
    simp [failures, leftBy, hlater]
  | cons y before ih =>
    intro g
    obtain ⟨hfirst, hrest⟩ := List.nodup_cons.mp hnodup
    have hother : place x ≠ place y := fun heq => hfirst (heq ▸ List.mem_map_of_mem (by simp))
    have hhead : (place x, e) ∉ (attempt y g).1.toList.map (place y, ·) := fun hmem => by
      obtain ⟨e', -, heq⟩ := List.mem_map.mp hmem
      exact hother (congrArg Prod.fst heq).symm
    rw [List.cons_append, failures, List.mem_append, or_iff_right hhead]
    exact ih hrest

end Attempts

def checking (env : LowerEnv) : Attempt (Nat × Chain) := fun x => checkChain env x.1 x.2

def defining (env : LowerEnv) (p : Program) : Attempt Definition := fun d g =>
  (failureOf (lowerDefinition env p d g).1, (lowerDefinition env p d g).2)

theorem checkChains_eq (chains : List (Nat × Chain)) : ∀ g : Globals, checkChains env chains g =
      ((failures (checking env) Prod.fst chains g).map Prod.snd, leftBy (checking env) chains g) := by
  induction chains with
  | nil => exact fun _ => rfl
  | cons x chains ih =>
    obtain ⟨index, c⟩ := x
    intro g
    simp only [checkChains, ih, failures, List.map_append, checking, leftBy, List.foldl_cons]
    cases (checkChain env index c g).1 <;> rfl

theorem lowerDefinitions_errors (definitions : List Definition) : ∀ g : Globals,
    (lowerDefinitions env p definitions g).2.1 =
      (failures (defining env p) Definition.chain definitions g).map Prod.snd := by
  induction definitions with
  | nil => exact fun _ => rfl
  | cons d definitions ih =>
    intro g
    simp only [lowerDefinitions, failures, List.map_append, defining, ← ih]
    cases (lowerDefinition env p d g).1 <;> rfl

def errorsOf : Except (CompileError × List CompileError) FunctionCode → List CompileError
  | .ok _ => []
  | .error (e, es) => e :: es

open Flow (mainEnv)

variable {keep : Bool} {functions : List FunctionDecl} {definitions : List Definition}

theorem compile_errors (h : declare p = .ok (functions, definitions)) : (p.compile keep).errors =
      errorsOf (lowerMain (mainEnv p functions keep) (chainsHeaded p "on_start")).1 ++
        (lowerDefinitions (mainEnv p functions keep) p definitions
          (lowerMain (mainEnv p functions keep) (chainsHeaded p "on_start")).2).2.1 := by
  simp only [Program.compile, h, mainEnv]
  split
  · next heq => rw [heq]; rfl
  · next heq =>
    rw [heq]
    split
    · next hlater => rw [hlater]; rfl
    · next hlater => rw [hlater]; rfl

theorem compile_result (h : declare p = .ok (functions, definitions)) :
    ((p.compile keep).errors = [] → ∃ code, (p.compile keep).result = .ok code) ∧
      ∀ e es, (p.compile keep).errors = e :: es → (p.compile keep).result = .error e := by
  simp only [Program.compile, h]
  generalize lowerMain _ _ = attempt
  obtain ⟨main, g⟩ := attempt
  generalize lowerDefinitions _ _ _ _ = attempts
  obtain ⟨codes, later, g'⟩ := attempts
  cases main with
  | error =>
    refine ⟨fun hnone => ?_, fun e es' hsome => ?_⟩
    · cases hnone
    · cases hsome
      rfl
  | ok =>
    cases later with
    | nil =>
      refine ⟨fun _ => ⟨_, rfl⟩, fun e es hsome => ?_⟩
      cases hsome
    | cons =>
      refine ⟨fun hnone => ?_, fun e' es' hsome => ?_⟩
      · cases hnone
      · cases hsome
        rfl

theorem reports_cases (h : (p.compile keep).Reports e) : declare p = .error e ∨
      ∃ functions definitions, declare p = .ok (functions, definitions) ∧ e ∈ (p.compile keep).errors := by
  cases hdecl : declare p with
  | error =>
    left
    simp only [Compilation.Reports, Program.compile, hdecl] at h
    rcases h with h | h
    · cases h
      rfl
    · cases h
  | ok r =>
    obtain ⟨functions, definitions⟩ := r
    refine .inr ⟨functions, definitions, rfl, ?_⟩
    rcases h with h | h
    · obtain ⟨hnone, hsome⟩ := @compile_result p keep functions definitions hdecl
      cases herrors : (p.compile keep).errors with
      | nil =>
        obtain ⟨code, hcode⟩ := hnone herrors
        rw [h] at hcode
        cases hcode
      | cons e' es =>
        have hfirst := hsome e' es herrors
        rw [h] at hfirst
        cases hfirst
        exact List.mem_cons_self
    · exact h

end Compile

end Blockwork
