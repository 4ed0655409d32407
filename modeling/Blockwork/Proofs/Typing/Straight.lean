import Blockwork.Proofs.Lowering.Emission
import Blockwork.Proofs.Typing.Ascends

/-! # Straight-line lowering
What most steps of lowering append depends on the next free register and on the function, and on nothing
else in the state: `Straight` says so, with the kinds of the registers that have to be written before the
step and of those it gives. -/

namespace Blockwork

/-- Whether an instruction has no bodies, calls no function and leaves the roots alone. -/
def Instr.isQuiet : Instr → Bool
  | .constant _ _ | .unary _ _ _ | .binary _ _ _ _ | .element _ _ | .load _ _ _ | .store _ _ | .address _ _ | .poll => true
  | .entry _ e _ => e.ordinary && !e.allocates
  | _ => false

theorem Instr.isLeaf_of_isQuiet {i : Instr} (h : i.isQuiet = true) : i.isLeaf = true := by
  cases i <;> first | rfl | cases h

theorem Instr.usesFrame_of_isQuiet {i : Instr} (h : i.isQuiet = true) : i.usesFrame = false := by
  cases i with
  | entry d e args =>
    simp only [isQuiet, Bool.and_eq_true, Bool.not_eq_true'] at h
    rw [usesFrame, Entry.usesFrame, h.2]
    cases e <;> first | rfl | cases h.1
  | _ => first | rfl | cases h

namespace Typing

open Lower
open Flow (bind_ok pure_ok fail_ok)

/-! ### What a step appends -/

structure Output where
  code : List Instr
  next : Reg
  required : Bool
  /-- The mark of the statement, where it is set. -/
  dirty : Option Bool

namespace Output

def onto (o : Output) (s : LowerState) : LowerState :=
  { s with
    scopes := { (bif o.required then s.scopes.requireRootScope else s.scopes) with
      dirty := o.dirty.getD s.scopes.dirty }
    code := s.code ++ o.code
    nextReg := o.next }

def none (next : Reg) : Output := ⟨[], next, false, .none⟩

def one (i : Instr) (next : Reg) : Output := ⟨[i], next, false, .none⟩

def followedBy (o o' : Output) : Output :=
  ⟨o.code ++ o'.code, o'.next, o.required || o'.required, o'.dirty.or o.dirty⟩

@[simp] theorem nextReg_onto (o : Output) (s : LowerState) : (o.onto s).nextReg = o.next := rfl

@[simp] theorem code_onto (o : Output) (s : LowerState) : (o.onto s).code.toList = s.code.toList ++ o.code := by
  simp [onto]

@[simp] theorem onto_none (s : LowerState) : (none s.nextReg).onto s = s := by
  simp [onto, none]

theorem requireRootScope_idem (sc : Scopes Body) : sc.requireRootScope.requireRootScope = sc.requireRootScope := by
  simp only [Scopes.requireRootScope]
  congr 1
  apply Array.ext_getElem?
  intro i
  simp only [Array.getElem?_modify, Array.size_modify]
  split
  · cases sc.rootScopes[i]? <;> rfl
  · rfl

theorem onto_followedBy (o o' : Output) (s : LowerState) : (o.followedBy o').onto s = o'.onto (o.onto s) := by
  have hcode : s.code ++ (o.code ++ o'.code) = s.code ++ o.code ++ o'.code := by
    apply Array.ext'
    simp
  have hdirty : (o'.dirty.or o.dirty).getD s.scopes.dirty = o'.dirty.getD (o.dirty.getD s.scopes.dirty) := by
    cases o'.dirty <;> rfl
  simp only [onto, followedBy, hcode, hdirty]
  congr 1
  cases o.required <;> cases o'.required
  · rfl
  · rfl
  · rfl
  · have hidem := requireRootScope_idem s.scopes
    simp only [Bool.or_self, cond_true]
    rw [show ({ s.scopes.requireRootScope with dirty := o.dirty.getD s.scopes.dirty } :
        Scopes Body).requireRootScope = { s.scopes.requireRootScope.requireRootScope with
          dirty := o.dirty.getD s.scopes.dirty } from rfl, hidem]

end Output

/-- What is known of the output of a step from the register `first` on: it holds leaves only, notes
truly whether the root scope is needed, and is well-kinded; and it writes registers in order. -/
structure Adds (ctx : Setting) (loud : Bool) (first : Reg) (known gives : List (Reg × Content))
    (o : Output) : Prop where
  leaf : ∀ i ∈ o.code, i.isLeaf = true
  required : o.required = Instr.usesFrameIn o.code
  dirty : o.dirty = some true → o.required = true
  quiet : loud = false → o.required = false ∧ o.dirty = none ∧ ∀ i ∈ o.code, i.isQuiet = true
  typed : ∀ T D, T.length = first → HasAll T D known →
    ∃ new D', (T ++ new).length = o.next ∧ Line ctx (T ++ new) D o.code D' ∧ HasAll (T ++ new) D' gives
  ascends : Ascends first o.code o.next

def keeping (env : LowerEnv) (keep : Bool) : LowerEnv :=
  { env with keepScopes := keep }

def arityOf (env : LowerEnv) (i : Nat) : Option Nat :=
  (env.functions[i]?).map fun d => d.params.length

def settingOf (env : LowerEnv) : Setting :=
  ⟨arityOf env, env.kind == .main⟩

/-- A step that succeeds appends code that depends on the next free register and the function only. -/
def Straight (ctx : Setting) (loud : Bool) {α : Type} (known : List (Reg × Content))
    (x : Lower α) (gives : α → List (Reg × Content)) : Prop :=
  ∀ env s a t, settingOf env = ctx → x env s = .ok a t → ∃ o : Output, t = o.onto s ∧
    (∀ keep s', s'.nextReg = s.nextReg → x (keeping env keep) s' = .ok a (o.onto s')) ∧
    Adds ctx loud s.nextReg known (gives a) o

section Rules

variable {ctx : Setting} {loud : Bool} {α β : Type} {known : List (Reg × Content)} {x : Lower α}
  {gives : α → List (Reg × Content)}

namespace Adds

theorem none (h : given ⊆ known) : Adds ctx loud first known given (.none first) where
  leaf := nofun
  required := rfl
  dirty := nofun
  quiet := fun _ => ⟨rfl, rfl, nofun⟩
  typed := fun T D hT hk => by
    refine ⟨[], D, ?_, .nil, fun y hy => ?_⟩
    · rw [List.append_nil]
      exact hT
    · rw [List.append_nil]
      exact hk y (h hy)
  ascends := .refl first

theorem followedBy (h : Adds ctx loud first known mid o) (h' : Adds ctx loud o.next (mid ++ known) last o') :
    Adds ctx loud first known last (o.followedBy o') where
  leaf := fun i hi => (List.mem_append.mp hi).elim (h.leaf i) (h'.leaf i)
  required := by
    simp only [Output.followedBy, Instr.usesFrameIn_append, h.required, h'.required]
  dirty := by
    intro hd
    simp only [Output.followedBy] at hd ⊢
    cases hlast : o'.dirty with
    | some b =>
      rw [hlast] at hd
      rw [h'.dirty (hlast.trans hd), Bool.or_true]
    | none =>
      rw [hlast] at hd
      rw [h.dirty hd, Bool.true_or]
  quiet := by
    intro hl
    obtain ⟨hr, hd, hq⟩ := h.quiet hl
    obtain ⟨hr', hd', hq'⟩ := h'.quiet hl
    simp only [Output.followedBy, hr, hr', hd, hd']
    exact ⟨rfl, rfl, fun i hi => (List.mem_append.mp hi).elim (hq i) (hq' i)⟩
  typed := by
    intro T D hT hk
    obtain ⟨new, D₁, hlen, hline, hgives⟩ := h.typed T D hT hk
    have hkept : HasAll (T ++ new) D₁ known := hk.mono (List.prefix_append _ _) hline.subset
    have hboth : HasAll (T ++ new) D₁ (mid ++ known) := fun y hy =>
      (List.mem_append.mp hy).elim (hgives y) (hkept y)
    obtain ⟨new', D₂, hlen', hline', hlast⟩ := h'.typed (T ++ new) D₁ hlen hboth
    rw [List.append_assoc] at hlen' hline' hlast
    have hgrown : T ++ new <+: T ++ (new ++ new') := by
      rw [← List.append_assoc]
      exact List.prefix_append _ _
    exact ⟨new ++ new', D₂, hlen', (hline.mono hgrown).append hline', hlast⟩
  ascends := h.ascends.append h'.ascends

end Adds

namespace Straight

theorem pure (h : gives a ⊆ known) : Straight ctx loud known (pure a) gives := by
  intro env s b t _ hx
  obtain ⟨rfl, rfl⟩ := pure_ok hx
  refine ⟨.none t.nextReg, (Output.onto_none t).symm, fun keep s' hs' => ?_, .none h⟩
  rw [← hs', Output.onto_none]
  rfl

theorem fail : Straight ctx loud known (fail cause loc) gives :=
  fun _ _ _ _ _ hx => (fail_ok hx).elim

theorem bindOf {Q : α → Prop} {f : α → Lower β} {last : β → List (Reg × Content)}
    (hx : Straight ctx loud known x gives) (hQ : ∀ env s a t, x env s = .ok a t → Q a)
    (hf : ∀ a, Q a → Straight ctx loud (gives a ++ known) (f a) last) : Straight ctx loud known (x >>= f) last := by
  intro env s b t henv hb
  obtain ⟨a, s₁, hxa, hfa⟩ := bind_ok hb
  obtain ⟨o, rfl, hnat, hadds⟩ := hx env s a s₁ henv hxa
  obtain ⟨o', rfl, hnat', hadds'⟩ := hf a (hQ env s a _ hxa) env (o.onto s) b t henv hfa
  refine ⟨o.followedBy o', (o.onto_followedBy o' s).symm, fun keep s' hs' => ?_, hadds.followedBy hadds'⟩
  have hfirst := hnat keep s' hs'
  have hsecond := hnat' keep (o.onto s') rfl
  simp only [Bind.bind, ReaderT.bind, EStateM.bind, hfirst, hsecond, o.onto_followedBy o' s']

theorem bind {f : α → Lower β} {last : β → List (Reg × Content)} (hx : Straight ctx loud known x gives)
    (hf : ∀ a, Straight ctx loud (gives a ++ known) (f a) last) : Straight ctx loud known (x >>= f) last :=
  hx.bindOf (fun _ _ _ _ _ => trivial) fun a _ => hf a

theorem weaken (h : Straight ctx loud known x gives) (hk : known ⊆ known') : Straight ctx loud known' x gives := by
  intro env s a t henv hx
  obtain ⟨o, ht, hnat, hadds⟩ := h env s a t henv hx
  exact ⟨o, ht, hnat, { hadds with
    typed := fun T D hT hk' => hadds.typed T D hT fun y hy => hk' y (hk hy) }⟩

theorem ofEnv {f : LowerEnv → Lower α} (hsame : ∀ env keep, f (keeping env keep) = f env)
    (h : ∀ env, settingOf env = ctx → Straight ctx loud known (f env) gives) :
    Straight ctx loud known (read >>= f) gives := by
  intro env s a t henv hx
  obtain ⟨o, ht, hnat, hadds⟩ := h env henv env s a t henv hx
  refine ⟨o, ht, fun keep s' hs' => ?_, hadds⟩
  show f (keeping env keep) (keeping env keep) s' = _
  rw [hsame]
  exact hnat keep s' hs'

theorem of_run {a : Reg → α} {o : Reg → Output} (hrun : ∀ env s, x env s = .ok (a s.nextReg) ((o s.nextReg).onto s))
    (hadds : ∀ d, Adds ctx loud d known (gives (a d)) (o d)) : Straight ctx loud known x gives := by
  intro env s b t _ hx
  cases (hrun env s).symm.trans hx
  exact ⟨_, rfl, fun keep s' hs' => by rw [hrun, hs'], hadds _⟩

theorem adds_write {i : Instr} (hdst : i.dst? = some d) (huses : i.usesFrame = required)
    (hdirty : dirty = some true → required = true)
    (hquiet : loud = false → required = false ∧ dirty = .none ∧ i.isQuiet = true)
    (hleaf : ∀ T D, T.length = d → HasAll T D known → Leaf ctx (T ++ [c]) D i) :
    Adds ctx loud d known [(d, c)] ⟨[i], d + 1, required, dirty⟩ := by
  refine ⟨?_, ?_, hdirty, fun hl => by simpa using hquiet hl, fun T D hT hk => ?_, .write hdst⟩
  · intro j hj
    obtain rfl := List.mem_singleton.mp hj
    exact Instr.isLeaf_of_dst? hdst
  · simp [Instr.usesFrameIn_singleton, huses]
  · refine ⟨[c], d :: D, by simp [hT], .cons (hleaf T D hT hk) ?_, ?_⟩
    · rw [hdst]
      exact .nil
    · intro y hy
      obtain rfl := List.mem_singleton.mp hy
      refine ⟨?_, List.mem_cons_self⟩
      simp [← hT]

theorem write {i : Reg → Instr} (hdst : ∀ d, (i d).dst? = some d) (huses : ∀ d, (i d).usesFrame = false)
    (hquiet : loud = false → ∀ d, (i d).isQuiet = true)
    (hleaf : ∀ T D, HasAll T D known → Leaf ctx (T ++ [c]) D (i T.length)) :
    Straight ctx loud known (do let d ← fresh; emit (i d); return d) fun d => [(d, c)] :=
  .of_run (a := id) (o := fun d => .one (i d) (d + 1)) (fun _ _ => rfl) fun d =>
    adds_write (hdst d) (huses d) nofun (fun hl => ⟨rfl, rfl, hquiet hl d⟩) fun T D hT hk =>
      hT ▸ hleaf T D hk

theorem writeMarked {i : Reg → Instr} (hdst : ∀ d, (i d).dst? = some d) (huses : ∀ d, (i d).usesFrame = true)
    (hleaf : ∀ T D, HasAll T D known → Leaf ctx (T ++ [c]) D (i T.length)) :
    Straight ctx true known (do onScopes .markDirty; let d ← fresh; emit (i d); return d)
      fun d => [(d, c)] :=
  .of_run (a := id) (o := fun d => ⟨[i d], d + 1, true, some true⟩) (fun _ _ => rfl) fun d =>
    adds_write (hdst d) (huses d) (fun _ => rfl) nofun fun T D hT hk =>
      hT ▸ hleaf T D hk

theorem emit (hdst : i.dst? = .none) (hleaf : i.isLeaf = true) (huses : i.usesFrame = false)
    (hquiet : loud = false → i.isQuiet = true) (htyped : ∀ T D, HasAll T D known → Leaf ctx T D i) :
    Straight ctx loud known (emit i) fun _ => [] := by
  refine .of_run (a := fun _ => ()) (o := Output.one i) (fun _ _ => rfl) fun d =>
    ⟨?_, ?_, nofun, fun hl => ⟨rfl, rfl, by simpa [Output.one] using hquiet hl⟩, fun T D hT hk => ?_,
      .silent hleaf hdst⟩
  · intro j hj
    obtain rfl := List.mem_singleton.mp hj
    exact hleaf
  · simp [Output.one, Instr.usesFrameIn_singleton, huses]
  · refine ⟨[], D, ?_, .cons ?_ ?_, nofun⟩
    · rw [List.append_nil]
      exact hT
    · simpa using htyped T D hk
    · rw [hdst]
      exact .nil

theorem clean : Straight ctx true known (onScopes (·.setDirty false)) fun _ => [] := by
  refine .of_run (a := fun _ => ()) (o := fun d => ⟨[], d, false, some false⟩) (fun _ _ => rfl) fun d =>
    ⟨nofun, rfl, nofun, nofun, fun T D hT _ => ⟨[], D, ?_, .nil, nofun⟩, .refl _⟩
  rw [List.append_nil]
  exact hT

end Straight

/-! ### Primitives -/

theorem constant_straight (v : Value) : Straight ctx loud known (constant v) fun d => [(d, v.content)] :=
  .write (fun _ => rfl) (fun _ => rfl) (fun _ _ => rfl) fun T _ _ => .constant (by simp)

theorem unary_straight (hr : (r, c) ∈ known) (hop : op.accepts c = true) :
    Straight ctx loud known (unary op r) fun d => [(d, .value op.result)] :=
  .write (fun _ => rfl) (fun _ => rfl) (fun _ _ => rfl) fun T D hk =>
    .unary ((hk _ hr).mono (List.prefix_append _ _) (List.Subset.refl _)) hop (by simp)

theorem binary_straight (hl : (l, c) ∈ known) (hr : (r, c') ∈ known) (hop : op.accepts c c' = true) :
    Straight ctx loud known (binary op l r) fun d => [(d, .value op.result)] :=
  .write (fun _ => rfl) (fun _ => rfl) (fun _ _ => rfl) fun T D hk =>
    .binary ((hk _ hl).mono (List.prefix_append _ _) (List.Subset.refl _))
      ((hk _ hr).mono (List.prefix_append _ _) (List.Subset.refl _)) hop (by simp)

theorem elementOf_straight (hr : (r, .value ty) ∈ known) :
    Straight ctx loud known (elementOf r) fun d => [(d, .element)] :=
  .write (fun _ => rfl) (fun _ => rfl) (fun _ _ => rfl) fun T D hk =>
    .element ((hk _ hr).mono (List.prefix_append _ _) (List.Subset.refl _)) (by simp)

theorem poll_straight : Straight ctx loud known poll fun _ => [] :=
  .emit rfl rfl rfl (fun _ => rfl) fun _ _ _ => .poll

theorem call_leaf (hks : ks ⊆ known) (he : e.accepts (ks.map Prod.snd) = true) (T : List Content) (D : List Reg)
    (hk : HasAll T D known) : Leaf ctx (T ++ [e.yields]) D (.entry T.length e (ks.map Prod.fst)) := by
  have hargs : HasAll (T ++ [e.yields]) D ks := fun y hy =>
    (hk y (hks hy)).mono (List.prefix_append _ _) (List.Subset.refl _)
  exact .entry hargs rfl he (by simp)

theorem call_straight (e : Entry) (ks : List (Reg × Content)) (hks : ks ⊆ known)
    (he : e.accepts (ks.map Prod.snd) = true) (huses : e.usesFrame = e.allocates)
    (hquiet : loud = false → (e.ordinary && !e.allocates) = true) :
    Straight ctx loud known (call e (ks.map Prod.fst)) fun d => [(d, e.yields)] := by
  cases halloc : e.allocates with
  | false =>
    have hcall : call e (ks.map Prod.fst) = do let d ← fresh; emit (.entry d e (ks.map Prod.fst)); return d := by
      simp only [call, halloc]
      rfl
    rw [hcall]
    exact .write (fun _ => rfl) (fun _ => huses.trans halloc) (fun hl _ => hquiet hl) (call_leaf hks he)
  | true =>
    have hcall : call e (ks.map Prod.fst) = do
        onScopes .markDirty; let d ← fresh; emit (.entry d e (ks.map Prod.fst)); return d := by
      simp only [call, halloc]
      rfl
    rw [hcall]
    cases loud with
    | false => simp [halloc] at hquiet
    | true => exact .writeMarked (fun _ => rfl) (fun _ => huses.trans halloc) (call_leaf hks he)

theorem perform_straight (e : Entry) (ks : List (Reg × Content)) (hks : ks ⊆ known)
    (he : e.accepts (ks.map Prod.snd) = true) (huses : e.usesFrame = e.allocates) :
    Straight ctx true known (perform e (ks.map Prod.fst)) fun _ => [] :=
  .bind (call_straight e ks hks he huses nofun) fun _ => .pure (List.nil_subset _)

end Rules

end Typing

end Blockwork
