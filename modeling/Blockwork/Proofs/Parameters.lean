import Blockwork.Proofs.Repetition

/-! # Parameters
A parameter stands for the register of its place, which holds the argument for as long as the call lasts. -/

namespace Blockwork

open Lower Compile Machine
open Flow

variable {p : Program} {functions : List FunctionDecl} {definitions : List Definition}

/-! ### Names -/

/-- The template that a parameter is taken to belong to: the last one that has it. -/
def Program.owner? (p : Program) (x : String) : Option String :=
  (p.blockdefs.reverse.find? (·.params.contains x)).map Blockdef.id

theorem lookup_pairs (x id : String) (params : List String) :
    (params.map (·, id)).lookup x = if params.contains x then some id else none := by
  induction params with
  | nil => rfl
  | cons y params ih =>
    simp only [List.map_cons, List.lookup_cons, List.contains_cons, ih]
    cases x == y <;> rfl

theorem lookup_paramOwners (p : Program) (x : String) : (paramOwners p).lookup x = p.owner? x := by
  rw [paramOwners, List.reverse_flatMap, Program.owner?]
  induction p.blockdefs.reverse with
  | nil => rfl
  | cons d ds ih =>
    rw [List.flatMap_cons, List.lookup_append, Function.comp_apply, ← List.map_reverse, lookup_pairs,
      List.contains_reverse, ih, List.find?_cons]
    cases d.params.contains x <;> rfl

section Lowering

variable {env : LowerEnv} {s : LowerState} {loc : Location}

theorem resolve_parameter (hkind : env.kind = .user name) (hdef : findFunction? env.functions name = some (f, decl))
    (hbuiltin : Builtin.find? x = none) (hfunction : findFunction? env.functions x = none)
    (hi : decl.params.findIdx? (· == x) = some i) (howner : env.paramOwners.lookup x = some owner) :
    resolve x loc env s =
      if owner = name then .ok (.parameter i) s else .error ⟨.parameterUnowned, some loc⟩ s := by
  have hfind : findParameter? env name x = some i := by rw [findParameter?, hdef]; exact hi
  simp only [resolve, bind, ReaderT.bind, EStateM.bind, read, readThe, MonadReaderOf.read, ReaderT.read, pure,
    EStateM.pure, hbuiltin, hfunction, howner, hkind]
  by_cases heq : owner = name
  · subst heq
    simp only [beq_self_eq_true, if_true, hfind]
    rfl
  · have hne : (name == owner) = false := by simp [Ne.symm heq]
    simp only [hne, heq, if_false, Bool.false_eq_true]
    rfl

theorem nested_parameter (h : resolve x loc env s = .ok (.parameter i) s) (args : List Argument) :
    nested (.mk x args) loc env s =
      (do let _ ← arguments args loc 0; settle loc; return .reg .any i : Lower Operand) env s := by
  simp only [nested, bind, ReaderT.bind, EStateM.bind, h]
  rfl

theorem callFunction_refused (f : Nat) (decl : FunctionDecl) {argv : List Operand}
    (h : argv.length ≠ decl.params.length) :
    ∃ cause, callFunction f decl argv loc env s = .error ⟨cause, some loc⟩ s := by
  unfold callFunction
  rw [if_pos h]
  split
  · exact ⟨_, rfl⟩
  · exact ⟨_, rfl⟩

theorem callFunction_passes {argv : List Operand} (h : callFunction f decl argv loc env s = .ok v t) :
    argv.length = decl.params.length ∧ ∃ args s₁, argv.mapM (toAny · loc) env s = .ok args s₁ ∧
      t.code.toList = s₁.code.toList ++ [.call s₁.nextReg f args, .poll] ∧ v = .reg .any s₁.nextReg := by
  unfold callFunction at h
  split at h
  · exact (fail_ok h).elim
  · split at h
    · exact (fail_ok h).elim
    next hlen =>
      obtain ⟨args, s₁, hargs, hrest⟩ := bind_ok h
      cases hrest
      exact ⟨Decidable.not_not.mp hlen, args, s₁, hargs, by simp, rfl⟩

end Lowering

/-! ### Calls -/

section Calls

variable {code : ProgramCode} {h : Host} {m₀ m mk : Machine} {args : List Reg}

theorem Activation.get_start {fn : FunctionCode} {values : List Value} (hi : values[i]? = some v) :
    (start fn values b d).get i = v := by
  obtain ⟨hlt, hget⟩ := List.getElem?_eq_some_iff.mp hi
  simp [start, Activation.get, Array.getD_eq_getD_getElem?, Array.getElem?_append, hlt, hget]

theorem Activation.registers_le_start (fn : FunctionCode) (values : List Value) (b : Nat) (d : Reg) :
    fn.registers ≤ (start fn values b d).regs.size := by
  simp only [start, Array.size_append, List.size_toArray, Array.size_replicate]
  omega

theorem Machine.calls_within (hfn : code.functions[f]? = some fn) (hascends : Ascends low fn.code fn.registers)
    (hcall : m.active.code = .call dst f args :: is) (h : Host) (n : Nat) :
    ∃ m₁, step code (h.visit n m) = .running m₁ ∧ m₁.waiting = { m.active with code := is } :: m.waiting ∧
      (∀ i r, args[i]? = some r → m₁.active.get i = m.active.get r) ∧ m₁.Within low [] m₁ := by
  obtain ⟨s, ⟨_, konts, regs, base, dst'⟩, ws⟩ := m
  cases hcall
  have hgetD : code.functions.getD f default = fn := by rw [Array.getD_eq_getD_getElem?, hfn]; rfl
  refine ⟨_, rfl, rfl, fun i r hr => ?_, [], _, [], rfl, fun a ha => (by cases ha), rfl,
    ⟨⟨low, fn.registers, Nat.le_refl _, ?_, ?_⟩, List.forall_mem_nil _⟩, rfl, fun _ _ => rfl⟩
  · refine Activation.get_start ?_
    rw [List.getElem?_map, hr]
    rfl
  · rw [hgetD]
    exact Activation.registers_le_start fn _ _ _
  · rw [hgetD]
    exact hascends

theorem Machine.call_lasts (hfn : code.functions[f]? = some fn) (hascends : Ascends low fn.code fn.registers)
    (hm : advance code h m₀ n = .running m) (hcall : m.active.code = .call dst f args :: is)
    (hk : advance code h m₀ (n + k + 1) = .running mk)
    (hlasts : ∀ j ≤ k, ∀ mj, advance code h m₀ (n + j + 1) = .running mj → m.waiting.length < mj.waiting.length) :
    ∃ above t, mk.active :: mk.waiting = above ++ t :: { m.active with code := is } :: m.waiting ∧
      ∀ i r, i < low → args[i]? = some r → t.get i = m.active.get r := by
  obtain ⟨m₁, hstep, hwaiting, hargs, hstart⟩ := calls_within hfn hascends hcall h n
  have hwithin : m₁.Within low [] mk := by
    induction k generalizing mk with
    | zero =>
      cases (hstep.symm.trans (advance_succ hm).symm).trans hk
      exact hstart
    | succ k ih =>
      obtain ⟨m', hm', hnext⟩ := running_succ hk
      have hbefore := ih hm' fun j hj => hlasts j (Nat.le_succ_of_le hj)
      refine (Within.step (m := h.visit (n + k + 1) m') hbefore (fun _ _ _ => rfl) hnext).resolve_right fun hless => ?_
      have hdeep := hlasts (k + 1) (Nat.le_refl _) mk hk
      rw [hwaiting, List.length_cons] at hless
      omega
  obtain ⟨above, t, inner, hstack, -, hkeeps⟩ := hwithin
  rw [hwaiting] at hstack
  exact ⟨above, t, hstack, fun i r hi hr => (hkeeps.kept i hi).trans (hargs i r hr)⟩

end Calls

namespace Program

/-- For a defined block whose parameters are distinct and named like no block: in its definition each of them is lowered
to the register of its place, except where a later template has the same parameter. A call passes as many arguments as
there are parameters, in boxes and in order, and from the call to its return these registers hold them. -/
theorem parameters_bind {name : String} {B : Blockdef} (hdecl : declare p = .ok (functions, definitions))
    (hB : p.findBlockdef? name = some B) (hdef : findFunction? functions name = some (f, decl))
    (hnodup : B.params.Nodup)
    (hfree : ∀ x ∈ B.params, Builtin.find? x = none ∧ findFunction? functions x = none) :
    (∀ keep i x loc s, B.params[i]? = some x →
      let env : LowerEnv := ⟨.user name, functions, paramOwners p, keep⟩
      (p.owner? x = some name → resolve x loc env s = .ok (.parameter i) s ∧ ∀ args,
        nested (.mk x args) loc env s =
          (do let _ ← arguments args loc 0; settle loc; return .reg .any i : Lower Operand) env s) ∧
      (p.owner? x ≠ some name → resolve x loc env s = .error ⟨.parameterUnowned, some loc⟩ s)) ∧
    (∀ env argv loc s, argv.length ≠ B.params.length →
      ∃ cause, callFunction f decl argv loc env s = .error ⟨cause, some loc⟩ s) ∧
    (∀ env argv loc s v t, callFunction f decl argv loc env s = .ok v t →
      ∃ args s₁, argv.mapM (toAny · loc) env s = .ok args s₁ ∧ args.length = B.params.length ∧
        t.code.toList = s₁.code.toList ++ [.call s₁.nextReg f args, .poll] ∧ v = .reg .any s₁.nextReg) ∧
    ∀ code h s n m dst args is k mk, p.compile.result = .ok code → advance code h (load code s) n = .running m →
      m.active.code = .call dst f args :: is → advance code h (load code s) (n + k + 1) = .running mk →
      (∀ j ≤ k, ∀ mj, advance code h (load code s) (n + j + 1) = .running mj → m.waiting.length < mj.waiting.length) →
      ∃ above t, mk.active :: mk.waiting = above ++ t :: { m.active with code := is } :: m.waiting ∧
        ∀ i r, i < B.params.length → args[i]? = some r → t.get i = m.active.get r := by
  obtain ⟨hget, rfl⟩ := findFunction?_some hdef
  have hparams : B.params = decl.params := by
    obtain ⟨t, ht, hparams⟩ := declareFrom_templates hdecl (List.forall_mem_nil _) decl (List.mem_of_getElem? hget)
    cases hB.symm.trans ht
    exact hparams
  refine ⟨fun keep i x loc s hx => ?_, fun env argv loc s hlen => ?_, fun env argv loc s v t hrun => ?_, ?_⟩
  · intro env
    have hmem := List.mem_of_getElem? hx
    have hi := findIdx?_of_nodup hnodup hx
    rw [hparams] at hi
    obtain ⟨owner, howner⟩ : ∃ owner, p.owner? x = some owner := by
      rw [← Option.isSome_iff_exists, owner?, Option.isSome_map, List.find?_isSome]
      exact ⟨B, List.mem_reverse.mpr (List.mem_of_find?_eq_some hB), List.contains_iff_mem.mpr hmem⟩
    have hresolve : resolve x loc env s = _ := resolve_parameter rfl hdef (hfree x hmem).1 (hfree x hmem).2 hi
      ((lookup_paramOwners p x).trans howner)
    rw [howner]
    refine ⟨fun heq => ?_, fun hne => hresolve.trans (if_neg fun heq => hne (congrArg some heq))⟩
    have hok := hresolve.trans (if_pos (Option.some.inj heq))
    exact ⟨hok, nested_parameter hok⟩
  · rw [hparams] at hlen
    exact callFunction_refused f decl hlen
  · obtain ⟨hlen, args, s₁, hargs, hcode, hv⟩ := callFunction_passes hrun
    exact ⟨args, s₁, hargs, by rw [mapM_length hargs, hlen, hparams], hcode, hv⟩
  · intro code h s n m dst args is k mk hcode hm hcall hk hlasts
    obtain ⟨Y⟩ := Tracing.compile_layout hcode
    have harity : Y.arity f = some B.params.length := by
      rw [Y.arities _ _ hdecl, hget, hparams]
      rfl
    obtain ⟨fn, W, hfn, hdescribed⟩ := Y.functions f _ harity
    exact call_lasts hfn hdescribed.ascends hm hcall hk hlasts

/-- A block that passes its second parameter on as the first. -/
def rotating : Program where
  chains :=
    [⟨[.mk "on_start" [], .mk "f" [.text "a", .text "b"]]⟩,
     ⟨[.definition "f", .mk "f" [.block (.mk "y" []), .block (.mk "x" [])]]⟩]
  blockdefs := [⟨"f", [.parameter "x", .parameter "y"]⟩]

theorem parameters_bind_rotating : rotating.owner? "y" = some "f" ∧
    nested (.mk "y" []) ⟨1, [1, 0]⟩ ⟨.user "f", [⟨"f", ["x", "y"]⟩], paramOwners rotating, false⟩ {} =
      .ok (.reg .any 1) {} := by
  have hdecl : declare rotating = .ok ([⟨"f", ["x", "y"]⟩], [⟨1, "f"⟩]) := rfl
  have hfind : rotating.findBlockdef? "f" = some ⟨"f", [.parameter "x", .parameter "y"]⟩ := rfl
  have hparams : (⟨"f", [.parameter "x", .parameter "y"]⟩ : Blockdef).params = ["x", "y"] := rfl
  have howner : rotating.owner? "y" = some "f" := by decide
  have hbinds := parameters_bind hdecl hfind rfl (by decide) (by rw [hparams]; decide)
  exact ⟨howner, ((hbinds.1 false 1 "y" ⟨1, [1, 0]⟩ {} rfl).1 howner).2 []⟩

/-- Two templates with a parameter of one name, the second without a definition. -/
def crossing : Program where
  chains :=
    [⟨[.mk "on_start" [], .mk "f" [.text "1"]]⟩, ⟨[.definition "f", .mk "print" [.block (.mk "x" [])]]⟩]
  blockdefs := [⟨"f", [.parameter "x"]⟩, ⟨"g", [.parameter "x"]⟩]

/-- The parameter is taken to belong to the second, so the definition of the first does not compile. -/
theorem crossing_unowned : declare crossing = .ok ([⟨"f", ["x"]⟩], [⟨1, "f"⟩]) ∧
    crossing.compile.errors = [⟨.parameterUnowned, some ⟨1, [1, 0]⟩⟩] :=
  ⟨rfl, by decide +kernel⟩

end Program

end Blockwork
