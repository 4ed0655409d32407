import Blockwork.Proofs.Lowering.Variables
import Blockwork.Proofs.Source

/-! # Blocks inside blocks
A block that stands as an argument keeps the discipline, and its value is known afterwards. -/

namespace Blockwork.Flow

open Lower

variable {loc : Location} {id : String}

/-! ### Leaving -/

def called (s : LowerState) (e : Entry) (args : List Reg) : LowerState :=
  { s with
    scopes := if e.allocates then s.scopes.markDirty else s.scopes
    code := s.code.push (.entry s.nextReg e args)
    nextReg := s.nextReg + 1 }

theorem call_ok (e : Entry) (args : List Reg) (env : LowerEnv) (s : LowerState) :
    call e args env s = .ok s.nextReg (called s e args) := by
  unfold call called
  cases e.allocates <;> rfl

theorem kept_called (h : 0 < s.scopes.rootScopes.size) (e : Entry) (args : List Reg) :
    Stable s (called s e args) ∧ 0 < (called s e args).scopes.rootScopes.size := by
  unfold called
  cases e.allocates with
  | false => exact ⟨⟨rfl, rfl, rfl, Nat.le_succ _, id, Or.inl⟩, h⟩
  | true =>
    refine ⟨⟨skeleton_markDirty _, rfl, rfl, Nat.le_succ _, fun _ => required_markDirty h,
      fun _ => Or.inr (required_markDirty h)⟩, ?_⟩
    simpa [Scopes.markDirty, Scopes.requireRootScope] using h

structure Hands (c : Rules) (value : Operand) (s : LowerState) (r : Reg) (s' : LowerState) : Prop where
  kept : Stable s s'
  roots : 0 < s'.scopes.rootScopes.size
  code : ∃ is, s'.code.toList = s.code.toList ++ is ∧ ∀ (f : Facts) (b : Room),
    (∀ x w, f.Knows c x w → x < s.nextReg) → (Point.body f).KnowsAll c (known value) →
    s'.nextReg ≤ b.registers → Flows c b (.left (.loose f)) (is ++ [.ret (some r)]) .dead

def handOver (value : Operand) (loc : Location) : Lower Reg :=
  match value with
  | .reg ty r => if ty.isHeap then do perform .addTempRoot [r]; toAny value loc else toAny value loc
  | value => toAny value loc

theorem leave_user (s : LowerState) (hkind : env.kind = .user id) : leave value loc env s =
      (do perform .rootRestore []
          let r ← handOver value loc
          emit (.ret (some r))
          onScopes (·.setDirty false) : Lower Unit) env s := by
  have hread : ∀ {β : Type} (k : LowerEnv → Lower β) t, (read >>= k) env t = k env env t := fun k t => rfl
  have hbind : ∀ {β γ : Type} (x : Lower β) (k k' : β → Lower γ),
      (∀ b t, k b env t = k' b env t) → ∀ t, (x >>= k) env t = (x >>= k') env t := by
    intro β γ x k k' hk t
    simp only [bind, ReaderT.bind, EStateM.bind]
    cases x env t with
    | ok b t => exact hk b t
    | error => rfl
  refine hbind _ _ _ (fun _ t => ?_) s
  rw [hread]
  simp only [hkind]
  cases value with
  | reg =>
    simp only [handOver]
    split
    · rw [bind_assoc]
    · rfl
  | nothing | literal | blockdef => rfl

section Hands

variable {c : Rules} {s : LowerState} (h : 0 < s.scopes.rootScopes.size) (hm : c.main = false)

include h hm

theorem hands_nothing : Hands c .nothing s s.nextReg (called s .anyNothing []) where
  kept := (kept_called h .anyNothing []).1
  roots := (kept_called h .anyNothing []).2
  code := ⟨[.entry s.nextReg .anyNothing []], by simp [called], fun _ _ _ _ hb =>
    .exit (.nothing hb) (.retValue hm rfl)⟩

theorem hands_scalar (he : boxesScalar e) (hty : wordOf ty = .plain) :
    Hands c (.reg ty x) s s.nextReg (called s e [x]) where
  kept := (kept_called h e [x]).1
  roots := (kept_called h e [x]).2
  code := ⟨[.entry s.nextReg e [x]], by simp [called], fun f _ _ hk hb =>
    .exit (.scalar hb he (by
      have hx : f.Knows c x (wordOf ty) := hk _ List.mem_cons_self
      rwa [hty] at hx)) (.retValue hm rfl)⟩

theorem hands_literal (hp : c.params ≤ s.nextReg) :
    Hands c (.literal text) s (s.nextReg + 2) (called (called (written s (.constant s.nextReg (.text t)))
      .stringFromLiteral [s.nextReg]) .anyFromString [s.nextReg + 1]) := by
  have hkept := kept_written s (.constant s.nextReg (.text t))
  obtain ⟨hmade, hroots⟩ := kept_called (s := written s (.constant s.nextReg (.text t))) h
    .stringFromLiteral [s.nextReg]
  obtain ⟨hboxed, hroots⟩ := kept_called hroots .anyFromString [s.nextReg + 1]
  refine ⟨(hkept.trans hmade).trans hboxed, hroots,
    [.constant s.nextReg (.text t), .entry (s.nextReg + 1) .stringFromLiteral [s.nextReg],
      .entry (s.nextReg + 2) .anyFromString [s.nextReg + 1]], by simp [called, written], ?_⟩
  intro f b _ _ hb
  have h₂ : s.nextReg + 2 < b.registers := hb
  have h₁ : s.nextReg + 1 < b.registers := Nat.lt_of_succ_lt h₂
  exact .exit (.text hp (Nat.lt_of_succ_lt h₁)) (.exit (.literal h₁ Facts.put_self)
    (.exit (.boxMade h₂) (.retValue hm rfl)))

theorem hands_boxed (he : boxesPointer e) (hty : wordOf ty = .heap) :
    Hands c (.reg ty x) s (s.nextReg + 1) (called (called s .addTempRoot [x]) e [x]) := by
  obtain ⟨hrooted, hroots⟩ := kept_called h .addTempRoot [x]
  obtain ⟨hboxed, hroots⟩ := kept_called hroots e [x]
  refine ⟨hrooted.trans hboxed, hroots, [.entry s.nextReg .addTempRoot [x], .entry (s.nextReg + 1) e [x]],
    by simp [called], ?_⟩
  intro f b hf hk hb
  have h₁ : s.nextReg + 1 < b.registers := hb
  have hx : f.Knows c x (wordOf ty) := hk _ List.mem_cons_self
  rw [hty] at hx
  exact .exit (.hand (Nat.lt_of_succ_lt h₁) (Nat.ne_of_gt (hf x _ hx)) hx)
    (.exit (.boxHanded h₁ he) (.retValue hm rfl))

theorem hands_any : Hands c (.reg .any x) s x (called s .addTempRoot [x]) := by
  obtain ⟨hrooted, hroots⟩ := kept_called h .addTempRoot [x]
  refine ⟨hrooted, hroots, [.entry s.nextReg .addTempRoot [x]], by simp [called], ?_⟩
  intro f b hf hk hb
  have hx : f.Knows c x .heap := hk _ List.mem_cons_self
  exact .exit (.hand hb (Nat.ne_of_gt (hf x _ hx)) hx) (.retValue hm rfl)

theorem handOver_hands (hp : c.params ≤ s.nextReg) (hx : handOver value loc env s = .ok r s') :
    Hands c value s r s' := by
  cases value with
  | nothing =>
    cases hx
    exact hands_nothing h hm
  | literal =>
    cases hx
    exact hands_literal h hm hp
  | blockdef => exact (fail_ok hx).elim
  | reg ty =>
    cases ty with
    | integer =>
      cases hx
      exact hands_scalar h hm (Or.inl rfl) rfl
    | float =>
      cases hx
      exact hands_scalar h hm (Or.inr (Or.inl rfl)) rfl
    | bool =>
      cases hx
      exact hands_scalar h hm (Or.inr (Or.inr (Or.inl rfl))) rfl
    | color =>
      cases hx
      exact hands_scalar h hm (Or.inr (Or.inr (Or.inr rfl))) rfl
    | string =>
      cases hx
      exact hands_boxed h hm (Or.inl rfl) rfl
    | list =>
      cases hx
      exact hands_boxed h hm (Or.inr rfl) rfl
    | any =>
      cases hx
      exact hands_any h hm

end Hands

theorem mem_of_map_blank {vs vs' : Array Variable} (h : vs'.map blank = vs.map blank) (hv : v ∈ vs') :
    ∃ w ∈ vs, blank w = blank v := by
  have hmem : blank v ∈ vs'.map blank := Array.mem_map_of_mem hv
  rw [h] at hmem
  exact Array.mem_map.mp hmem

theorem Stable.rootScopes_size (h : Stable s s') : s'.scopes.rootScopes.size = s.scopes.rootScopes.size := by
  have hsize := congrArg (fun t => t.rootScopes.size) h.scopes
  simpa [skeleton] using hsize

theorem Fit.dead (h : Fit C s pt) (hk : Stable s s') : Fit C s' .dead := by
  have hdead : pt.Sub .dead := by cases pt <;> trivial
  have hlocals : s'.scopes.locals.map blank = s.scopes.locals.map blank := by
    have hl := congrArg Scopes.locals hk.scopes
    exact hl
  have hused : s'.scopes.slotsUsed = s.scopes.slotsUsed := by
    have hu := congrArg Scopes.slotsUsed hk.scopes
    exact hu
  exact
    { params := Nat.le_trans h.params hk.nextReg
      point := trivial
      slots := by rw [hk.slots]; exact h.slots
      used := by rw [hk.slots, hused]; exact h.used
      roots := by rw [hk.rootScopes_size]; exact h.roots
      locals := fun v hv => by
        obtain ⟨w, hw, he⟩ := mem_of_map_blank hlocals hv
        rw [← visible_blank, ← he, visible_blank]
        exact (h.locals w hw).sub hdead
      globals := fun v hv => by
        obtain ⟨w, hw, he⟩ := mem_of_map_blank hk.globals hv
        rw [← visible_blank, ← he, visible_blank]
        exact (h.globals w hw).sub hdead
      cells := h.cells.trans hk.cells.symm
      table := fun v hv => by
        obtain ⟨w, hw, he⟩ := mem_of_map_blank hk.globals hv
        rw [← listed_blank, ← he, listed_blank]
        exact h.table w hw }

theorem Fit.goes_leave (h : Fit C s pt) (hk : Stable s s')
    (hcode : s'.code.toList = s.code.toList ++ .entry s.nextReg .rootRestore [] :: rest)
    (hrest : ∀ f, pt = .body f → Flows C.rules (roomAt C s') (.left (.loose (f.put s.nextReg .plain))) rest .dead) :
    Goes C true s pt s' .dead where
  code := by
    refine ⟨_, hcode, ?_⟩
    cases pt with
    | dead => exact .dead
    | left => exact h.point.elim
    | body f => exact .leave h.bounded.fresh h.params (hrest f rfl)
  sub := by cases pt <;> trivial
  kept := hk
  quiet := nofun
  fit := h.dead hk

theorem leave_goes (hx : leave value loc C.env s = .ok () s') (hfit : Fit C s pt)
    (hk : pt.KnowsAll C.rules (known value)) : Goes C true s pt s' .dead := by
  obtain ⟨hrestore, hroots⟩ := kept_called hfit.roots .rootRestore []
  cases hkind : C.env.kind with
  | main =>
    have hrun : leave value loc C.env s = .ok ()
        { called s .rootRestore [] with
          code := (called s .rootRestore []).code.push (.ret none)
          scopes := (called s .rootRestore []).scopes.setDirty false } := by
      have hread : (readThe LowerEnv : Lower LowerEnv) C.env (called s .rootRestore []) =
          .ok C.env (called s .rootRestore []) := rfl
      unfold leave
      simp only [bind, ReaderT.bind, EStateM.bind, perform, call_ok, pure, ReaderT.pure, EStateM.pure,
        read, hread, hkind]
      rfl
    cases hrun.symm.trans hx
    have hcode : ((called s .rootRestore []).code.push (.ret none)).toList =
        s.code.toList ++ .entry s.nextReg .rootRestore [] :: [.ret none] := by
      simp [called]
    exact hfit.goes_leave ⟨rfl, rfl, rfl, Nat.le_succ _, id, fun hd => (by cases hd)⟩ hcode
      fun f _ => .ret (C.main.mpr hkind)
  | user =>
    have hmain := C.user hkind
    rw [leave_user s hkind] at hx
    obtain ⟨⟨⟩, s₁, hcall, hrest⟩ := bind_ok hx
    obtain ⟨r, s₂, hhand, hlast⟩ := bind_ok hrest
    cases hcall
    cases hlast
    obtain ⟨hkept, -, is, hcode, hflow⟩ := handOver_hands hroots hmain (Nat.le_succ_of_le hfit.params) hhand
    have hdrop : Stable s₂
        { s₂ with scopes := s₂.scopes.setDirty false, code := s₂.code.push (.ret (some r)) } :=
      ⟨rfl, rfl, rfl, Nat.le_refl _, id, fun hd => (by cases hd)⟩
    have hall : (s₂.code.push (.ret (some r))).toList =
        s.code.toList ++ .entry s.nextReg .rootRestore [] :: (is ++ [.ret (some r)]) := by
      simp only [Array.toList_push, hcode]
      simp [called]
    refine hfit.goes_leave ((hrestore.trans hkept).trans hdrop) hall fun f hf => ?_
    subst hf
    refine hflow _ _ (fun x w hx => ?_) ((hfit.sub_put .plain).knowsAll hk) (Nat.le_refl _)
    rcases hx with ⟨hparam, -⟩ | hx
    · exact Nat.lt_succ_of_lt (Nat.lt_of_lt_of_le hparam hfit.params)
    · exact (hfit.written (.entry s.nextReg .rootRestore []) .plain).bounded.regs x w hx

theorem leave_emits (value : Operand) (loc : Location) :
    Emits C true (known value) (do leave value loc; return .nothing) known := by
  intro s pt arg s' hx hfit hk
  obtain ⟨⟨⟩, s₁, hleave, hret⟩ := bind_ok hx
  cases hret
  exact ⟨.dead, leave_goes hleave hfit hk, nofun⟩

theorem known_arg (argv : List Operand) (i : Nat) : known (argv.getD i .nothing) ⊆ argv.flatMap known := by
  rw [List.getD_eq_getElem?_getD]
  cases harg : argv[i]? with
  | none => exact List.nil_subset _
  | some a => exact fun x hx => List.mem_flatMap.mpr ⟨a, List.mem_of_getElem? harg, hx⟩

theorem storeVariable_emits (name : String) (value : Operand) (loc : Location) (hlax : C.rules.strict = false) :
    Emits C true (known value) (storeVariable name value loc) fun _ => [] := by
  intro s pt a s' hx hfit hk
  obtain ⟨pt', -, hgo⟩ := storeVariable_moves hx hfit hk
  exact ⟨pt', hgo hlax, nofun⟩

theorem variableName_emits (arg : Operand) (loc : Location) : Emits C true ks (variableName arg loc) fun _ => [] := by
  cases arg with
  | literal => exact .pure (List.nil_subset _)
  | nothing | blockdef | reg => exact .fail

theorem operation_emits (op : Operation) (argv : List Operand) (loc : Location) (hd : op ≠ .declare)
    (hs : op = .setVariable → C.rules.strict = false) (hc : C.rules.steady = true → op ≠ .random ∧ op ≠ .unixTime) :
    Emits C true (argv.flatMap known) (operation op argv loc) known := by
  have hplain (h : Typing.Operation.isPlain C.rules.steady op = true) :
      Emits C true (argv.flatMap known) (operation op argv loc) known := by
    rw [known_all]
    exact .operand (Typing.operation_parallel h (Typing.Like.refls (List.Subset.refl _)) trivial)
  cases op with
  | declare => exact absurd rfl hd
  | getVariable =>
    exact .bind (variableName_emits _ loc) fun name =>
      (loadVariable_emits name loc).weaken (List.nil_subset _)
  | setVariable =>
    refine .bind (variableName_emits _ loc) fun name => ?_
    refine .bind ((storeVariable_emits name _ loc (hs rfl)).weaken (known_arg argv 1)) fun _ => ?_
    exact .pure (known_arg argv 1)
  | leave => exact (leave_emits _ loc).weaken (known_arg argv 0)
  | random =>
    cases hsteady : C.rules.steady with
    | false => exact hplain (by rw [hsteady]; rfl)
    | true => exact absurd rfl (hc hsteady).1
  | unixTime =>
    cases hsteady : C.rules.steady with
    | false => exact hplain (by rw [hsteady]; rfl)
    | true => exact absurd rfl (hc hsteady).2
  | _ => exact hplain rfl

def Stands (env : LowerEnv) (id : String) : Resolved → Prop
  | .builtin b least => Builtin.find? id = some (b, least)
  | .function i d => env.functions[i]? = some d
  | .parameter i => ∃ owner j d, env.kind = .user owner ∧
      findFunction? env.functions owner = some (j, d) ∧ i < d.params.length

theorem findFunction?_some (h : findFunction? functions id = some x) : functions[x.1]? = some x.2 ∧ x.2.id = id := by
  unfold findFunction? at h
  cases hidx : functions.findIdx? (·.id == id) with
  | none =>
    rw [hidx] at h
    cases h
  | some =>
    rw [hidx] at h
    obtain ⟨e, he, rfl⟩ := Option.map_eq_some_iff.mp h
    obtain ⟨hlt, hid, -⟩ := List.findIdx?_eq_some_iff_getElem.mp hidx
    rw [List.getElem?_eq_getElem hlt] at he
    cases he
    exact ⟨List.getElem?_eq_getElem hlt, eq_of_beq hid⟩

theorem findParameter?_lt (h : findParameter? env owner id = some i) :
    ∃ j d, findFunction? env.functions owner = some (j, d) ∧ i < d.params.length := by
  obtain ⟨⟨j, d⟩, hd, hi⟩ := Option.bind_eq_some_iff.mp h
  exact ⟨j, d, hd, (List.findIdx?_eq_some_iff_getElem.mp hi).1⟩

theorem resolve_ok (h : resolve id loc env s = .ok r s') : s' = s ∧ Stands env id r := by
  obtain ⟨env', s₁, hread, hrest⟩ := bind_ok h
  obtain ⟨rfl, rfl⟩ : env' = env ∧ s₁ = s := by
    cases hread
    exact ⟨rfl, rfl⟩
  cases hfind : Builtin.find? id with
  | some =>
    rw [hfind] at hrest
    obtain ⟨rfl, rfl⟩ := pure_ok hrest
    exact ⟨rfl, hfind⟩
  | none =>
    rw [hfind] at hrest
    cases hfun : findFunction? env'.functions id with
    | some =>
      simp only [hfun] at hrest
      obtain ⟨rfl, rfl⟩ := pure_ok hrest
      exact ⟨rfl, (findFunction?_some hfun).1⟩
    | none =>
      simp only [hfun] at hrest
      cases howner : env'.paramOwners.lookup id with
      | none =>
        simp only [howner] at hrest
        exact (fail_ok hrest).elim
      | some owner =>
        cases hkind : env'.kind with
        | main =>
          simp only [howner, hkind] at hrest
          exact (fail_ok hrest).elim
        | user name =>
          simp only [howner, hkind] at hrest
          cases hparam : (if name == owner then findParameter? env' owner id else none) with
          | none =>
            simp only [hparam] at hrest
            exact (fail_ok hrest).elim
          | some =>
            simp only [hparam] at hrest
            obtain ⟨rfl, rfl⟩ := pure_ok hrest
            refine ⟨rfl, name, ?_⟩
            obtain ⟨hname, hi⟩ := Option.ite_none_right_eq_some.mp hparam
            obtain ⟨j, d, hd, hlt⟩ := findParameter?_lt hi
            exact ⟨j, d, hkind, (eq_of_beq hname) ▸ hd, hlt⟩

/-! ### Plain blocks -/

theorem mapM_length {f : Operand → Lower Reg} {args : List Operand} :
    ∀ {s s' : LowerState} {rs : List Reg}, args.mapM f env s = .ok rs s' → rs.length = args.length := by
  induction args with
  | nil =>
    intro s s' rs h
    rw [(pure_ok h).1]
    rfl
  | cons a args ih =>
    intro s s' rs h
    rw [List.mapM_cons] at h
    obtain ⟨r, s₁, -, hrest⟩ := bind_ok h
    obtain ⟨rs', s₂, htail, hlast⟩ := bind_ok hrest
    rw [(pure_ok hlast).1, List.length_cons, List.length_cons, ih htail]

theorem userCall_emits (index : Nat) (args : List Reg) (ha : C.rules.arity index = some args.length)
    (hk : args.map (·, Word.heap) ⊆ ks) : Emits C true ks (do
      onScopes .markDirty
      let dst ← fresh
      emit (.call dst index args)
      poll
      return dst) fun d => [(d, .heap)] := by
  intro s pt a s' hx hfit hknown
  have hdirty := hfit.goes_markDirty
  have hwritten := hdirty.fit.written (.call s.nextReg index args) .heap
  cases hx
  refine ⟨_, hdirty.trans ⟨⟨[.call s.nextReg index args, .poll], by simp, ?_⟩, hdirty.fit.sub_put .heap,
    ⟨rfl, rfl, rfl, Nat.le_succ _, id, Or.inl⟩, nofun,
    { hwritten with point := hwritten.point.mono (Nat.le_refl _) (Nat.le_refl _) (Nat.le_refl _) }⟩,
    hdirty.fit.knows_written⟩
  cases pt with
  | dead => exact .dead
  | left => exact hfit.point.elim
  | body =>
    exact .call hfit.bounded.fresh hfit.params (required_markDirty hfit.roots) ha
      (fun r hr => hknown _ (hk (List.mem_map_of_mem hr))) .nil

theorem callFunction_emits (argv : List Operand) (loc : Location) (hd : C.env.functions[index]? = some decl) :
    Emits C true (argv.flatMap known) (callFunction index decl argv loc) known := by
  intro s pt a s' hx hfit hk
  unfold callFunction at hx
  by_cases hmax : argv.length > maxParameters
  · rw [if_pos hmax] at hx
    exact (fail_ok hx).elim
  rw [if_neg hmax] at hx
  by_cases hlen : argv.length = decl.params.length
  · rw [if_neg (not_not_intro hlen)] at hx
    obtain ⟨args, s₁, hargs, hcall⟩ := bind_ok hx
    obtain ⟨pt₁, hgo, hgives⟩ := mapM_toAny_emits (C := C) argv loc s pt args s₁ hargs hfit hk
    have harity : C.rules.arity index = some args.length := by
      rw [C.arity index decl hd, mapM_length hargs, hlen]
    have hlast : Emits C true (args.map (·, Word.heap)) (do
          let dst ← (do
            onScopes .markDirty
            let dst ← fresh
            emit (.call dst index args)
            poll
            return dst)
          return .reg .any dst) known :=
      .bind (userCall_emits index args harity (List.Subset.refl _)) fun d =>
        .pure (by simp [known, wordOf, ValueType.isHeap])
    obtain ⟨pt₂, hgo', hknown⟩ := hlast s₁ pt₁ a s' hcall hgo.fit hgives
    exact ⟨pt₂, hgo.trans hgo', hknown⟩
  · rw [if_pos hlen] at hx
    exact (fail_ok hx).elim

theorem colorArgument_emits (text : String) (loc : Location) : Emits C true [] (colorArgument text loc) known := by
  have hwords : Emits C true (words []) (colorArgument text loc) known :=
    .operand (Typing.colorArgument_parallel text trivial)
  exact hwords

theorem requireArguments_emits (id : String) (least got : Nat) (loc : Location) :
    Emits C true ks (requireArguments id least got loc) fun _ => [] := by
  unfold requireArguments
  split
  · exact .fail
  · exact .pure (List.nil_subset _)

structure Rules.Admits (c : Rules) (id : String) : Prop where
  strict : c.strict = true → id ≠ "set_var"
  steady : c.steady = true → id ≠ "random" ∧ id ≠ "unix_time"

def plainValue (resolved : Resolved) (id : String) (argv : List Operand) (loc : Location) :
    Lower Operand :=
  match resolved with
  | .builtin (.operation op) least => do
    requireArguments id least argv.length loc
    operation op argv loc
  | .builtin _ _ => fail (.notAnArgument id) loc
  | .function index decl => callFunction index decl argv loc
  | .parameter i => pure (.reg .any i)

theorem applyPlain_eq (resolved : Resolved) (id : String) (argv : List Operand) (loc : Location) :
    applyPlain resolved id argv loc =
      (do let result ← plainValue resolved id argv loc; settle loc; return result) := by
  cases resolved with
  | builtin b => cases b <;> simp only [applyPlain, plainValue, bind_assoc]
  | function | parameter => rfl

theorem parameter_emits (h : Stands C.env id (.parameter i)) : Emits C true ks (pure (.reg .any i)) known := by
  obtain ⟨owner, j, d, hkind, hd, hi⟩ := h
  intro s pt a s' hx hfit _
  obtain ⟨rfl, rfl⟩ := pure_ok hx
  refine ⟨pt, .refl hfit, fun x hx => ?_⟩
  cases List.mem_singleton.mp hx
  cases pt with
  | dead => trivial
  | left => exact hfit.point.elim
  | body => exact Or.inl ⟨Nat.lt_of_lt_of_le hi (C.params owner hkind j d hd), rfl⟩

theorem plainValue_emits (h : Stands C.env id resolved) (hop : ∀ op least, resolved = .builtin (.operation op) least →
      Emits C true (argv.flatMap known) (operation op argv loc) known) :
    Emits C true (argv.flatMap known) (plainValue resolved id argv loc) known := by
  cases resolved with
  | builtin b least =>
    cases b with
    | operation op =>
      exact .bind (requireArguments_emits id least argv.length loc) fun _ =>
        (hop op least rfl).weaken (List.subset_append_right _ _)
    | _ => exact .fail
  | function => exact callFunction_emits argv loc h
  | parameter => exact parameter_emits h

theorem Rules.Admits.operation {c : Rules} (h : c.Admits id) (hfind : Builtin.find? id = some (.operation op, least)) :
    (op = .setVariable → c.strict = false) ∧ (c.steady = true → op ≠ .random ∧ op ≠ .unixTime) := by
  obtain ⟨hset, hrandom, htime, -⟩ := Builtin.name_unique _ (Builtin.mem_catalog hfind)
  refine ⟨fun hop => ?_, fun hs => ⟨fun hop => ?_, fun hop => ?_⟩⟩
  · cases hstrict : c.strict with
    | false => rfl
    | true => exact absurd (hset (hop ▸ rfl)) (h.strict hstrict)
  · exact (h.steady hs).1 (hrandom (hop ▸ rfl))
  · exact (h.steady hs).2 (htime (hop ▸ rfl))

theorem operation_nested (hloc : loc.hasParent = true) (hs : op = .setVariable → C.rules.strict = false)
    (hc : C.rules.steady = true → op ≠ .random ∧ op ≠ .unixTime) :
    Emits C true (argv.flatMap known) (operation op argv loc) known := by
  by_cases hd : op = .declare
  · subst hd
    simp only [operation, declarationBlock, hloc, if_true]
    exact .fail
  · exact operation_emits op argv loc hd hs hc

theorem settle_nested (hloc : loc.hasParent = true) (env : LowerEnv) (s : LowerState) :
    settle loc env s = .ok () s := by
  simp only [settle, hloc]
  rfl

theorem applyPlain_nested (hloc : loc.hasParent = true) (h : Stands C.env id resolved)
    (hallowed : C.rules.Admits id) : Emits C true (argv.flatMap known) (applyPlain resolved id argv loc) known := by
  have hvalue : Emits C true (argv.flatMap known) (plainValue resolved id argv loc) known := by
    refine plainValue_emits h fun op least hr => ?_
    subst hr
    obtain ⟨hs, hc⟩ := hallowed.operation h
    exact operation_nested hloc hs hc
  intro s pt a s' hx hfit hk
  rw [applyPlain_eq] at hx
  obtain ⟨v, s₁, hv, hrest⟩ := bind_ok hx
  obtain ⟨⟨⟩, s₂, hsettle, hlast⟩ := bind_ok hrest
  rw [settle_nested hloc] at hsettle
  cases hsettle
  obtain ⟨rfl, rfl⟩ := pure_ok hlast
  exact hvalue s pt _ _ hv hfit hk

theorem hasParent_child (h : loc.path ≠ []) (i : Nat) : (loc.child i).hasParent = true := by
  have hlen := List.length_pos_iff.mpr h
  simp only [Location.hasParent, Location.child, List.length_append, List.length_singleton,
    decide_eq_true_eq]
  omega

theorem path_of_hasParent (h : loc.hasParent = true) : loc.path ≠ [] := by
  intro hnil
  simp [Location.hasParent, hnil] at h

-- The recursion is that of lowering: through the arguments of a block into the blocks among them.
mutual

theorem arguments_emits : ∀ (args : List Argument) (loc : Location) (i : Nat), loc.path ≠ [] →
    (∀ id ∈ Argument.namesIn args, C.rules.Admits id) →
    Emits C true [] (arguments args loc i) fun argv => argv.flatMap known
  | [], _, _, _, _ => .pure (List.nil_subset _)
  | a :: rest, loc, i, hloc, hnames => by
    refine .bind (argument_emits a loc i hloc fun id hid => hnames id (List.mem_append_left _ hid)) fun v => ?_
    refine .bind ((arguments_emits rest loc (i + 1) hloc fun id hid =>
      hnames id (List.mem_append_right _ hid)).weaken (List.nil_subset _)) fun vs => .pure ?_
    simp

theorem argument_emits : ∀ (a : Argument) (loc : Location) (i : Nat), loc.path ≠ [] →
    (∀ id ∈ a.names, C.rules.Admits id) → Emits C true [] (Lower.argument a loc i) known
  | .text _, _, _, _, _ => .pure (List.nil_subset _)
  | .constant _, _, _, _, _ => .pure (List.nil_subset _)
  | .blockdef _, _, _, _, _ => .pure (List.nil_subset _)
  | .color s, loc, _, _, _ => colorArgument_emits s loc
  | .block b, loc, i, hloc, hnames => nested_emits b (loc.child i) (hasParent_child hloc i) hnames

theorem nested_emits : ∀ (b : Block) (loc : Location), loc.hasParent = true →
    (∀ id ∈ b.names, C.rules.Admits id) → Emits C true [] (nested b loc) known
  | .mk id args, loc, hloc, hnames => by
    intro s pt a s' hx hfit hk
    obtain ⟨resolved, s₁, hresolve, hrest⟩ := bind_ok hx
    obtain ⟨rfl, hstands⟩ := resolve_ok hresolve
    cases hplain : resolved.isPlain with
    | false =>
      simp only [hplain] at hrest
      exact (fail_ok hrest).elim
    | true =>
      simp only [hplain, if_true] at hrest
      have hboth : Emits C true [] (do
          let argv ← arguments args loc 0
          applyPlain resolved id argv loc) known :=
        .bind (arguments_emits args loc 0 (path_of_hasParent hloc) fun id hid =>
          hnames id (List.mem_cons_of_mem _ hid)) fun argv =>
          (applyPlain_nested hloc hstands (hnames id List.mem_cons_self)).weaken (List.subset_append_left _ _)
      exact hboth _ pt a s' hrest hfit hk

end

end Blockwork.Flow
