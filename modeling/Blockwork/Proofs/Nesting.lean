import Blockwork.Proofs.Laying
import Blockwork.Proofs.Tracing.Programs

/-! # Scopes of a chain
Walking over the blocks of a chain tells which scopes are open, from the names of the blocks alone. -/

namespace Blockwork

/-! ### Plain steps -/

namespace Nesting

open Lower

structure Tally where
  control : Array (OpenScope Body)
  opening : Option (Frame Body)
  closing : Option (Frame Body)
  frames : Nat
  roots : Nat
  marks : Nat

def tally (s : LowerState) : Tally :=
  ⟨s.scopes.control, s.scopes.opening, s.scopes.closing, s.scopes.variableFrames.size, s.scopes.rootScopes.size,
    s.scopes.dirtyStack.size⟩

theorem roots_eq (h : tally t = c) : t.scopes.rootScopes.size = c.roots := congrArg Tally.roots h

def Plain {α : Type} (x : Lower α) : Prop :=
  ∀ env s, Ends x env s fun _ t => tally t = tally s

namespace Plain

theorem pure (a : α) : Plain (Pure.pure a : Lower α) := fun _ _ => rfl

theorem bind (hx : Plain x) (hf : ∀ a, Plain (f a)) : Plain (x >>= f) := fun env s =>
  .bind ((hx env s).mono fun a t hst => (hf a env t).mono fun _ _ htu => htu.trans hst)

theorem emit (i : Instr) : Plain (Lower.emit i) := fun _ _ => rfl

theorem cutFrom (start : Nat) : Plain (Lower.cutFrom start) := fun _ _ => rfl

theorem emitAll (code : List Instr) : Plain (Lower.emitAll code) := by
  induction code with
  | nil => exact .pure _
  | cons i is ih => exact (emit i).bind fun _ => ih

end Plain

end Nesting

theorem Lays.plain (hx : Lays true true x) : Nesting.Plain x := fun env s =>
  (hx.ends env s).mono fun _ _ hl => by
    simp only [Nesting.tally, hl.control, hl.opening, hl.closing, hl.frames, hl.roots, hl.marks]

/-- Part that a block plays in a chain. -/
def Block.role (b : Block) : Role :=
  match Builtin.find? b.id with
  | some (x, _) => x.role
  | none => .plain

/-- Positions of the blocks whose scopes are open after a block, innermost first; none if the block closes a scope
and there is none. -/
def Block.walk (b : Block) (position : Nat) (scopes : List Nat) : Option (List Nat) :=
  match b.role with
  | .opens => some (position :: scopes)
  | .continues => scopes.tail?.map (position :: ·)
  | .closes => scopes.tail?
  | _ => some scopes

/-- The walk over blocks, the first of them standing at `position`: the position of the first block without a scope
to close, or the scopes that are open at the end. -/
def walk : List Block → Nat → List Nat → Except Nat (List Nat)
  | [], _, scopes => .ok scopes
  | b :: rest, position, scopes =>
    match b.walk position scopes with
    | none => .error position
    | some scopes => walk rest (position + 1) scopes

/-- The blocks that the walk passes: all before the first without a scope to close. -/
def walked : List Block → Nat → List Nat → List Block
  | [], _, _ => []
  | b :: rest, position, scopes =>
    match b.walk position scopes with
    | none => []
    | some scopes => b :: walked rest (position + 1) scopes

def Shallow : List Block → Nat → List Nat → Prop
  | [], _, _ => True
  | b :: rest, position, scopes =>
    match b.walk position scopes with
    | none => True
    | some scopes => scopes.length < maxOpenScopes ∧ Shallow rest (position + 1) scopes

instance Shallow.decidable : ∀ (bs : List Block) (position : Nat) (scopes : List Nat),
    Decidable (Shallow bs position scopes)
  | [], _, _ => .isTrue trivial
  | b :: rest, position, scopes =>
    match h : b.walk position scopes with
    | none => .isTrue (by simp only [Shallow, h])
    | some scopes' =>
      have := Shallow.decidable rest (position + 1) scopes'
      decidable_of_iff (scopes'.length < maxOpenScopes ∧ Shallow rest (position + 1) scopes')
        (by simp only [Shallow, h])

theorem Shallow.of_append : ∀ {position : Nat} {scopes : List Nat},
    Shallow (bs ++ more) position scopes → Shallow bs position scopes := by
  induction bs with
  | nil => exact fun _ => trivial
  | cons b rest ih =>
    intro position scopes h
    simp only [List.cons_append, Shallow] at h ⊢
    split at h
    · trivial
    · exact ⟨h.1, ih h.2⟩

namespace Nesting

open Lower
open Flow
open Trimming

variable {position : Nat}

def bottomOf (kind : FunctionKind) (index : Nat) : List (OpenScope Body) :=
  match kind with
  | .main => []
  | .user _ => [⟨⟨index, [0]⟩, .function⟩]

/-- Each open scope of the walk has a variable scope, a root scope and a saved mark of its own, and the function has
one root scope. -/
structure Tracks (index : Nat) (kind : FunctionKind) (scopes : List Nat) (s : LowerState) : Prop where
  control : ∃ bodies, stack s.scopes.control = bodies ++ bottomOf kind index ∧
    bodies.map OpenScope.loc = scopes.map (fun p => ⟨index, [p]⟩) ∧ ∀ o ∈ bodies, ∃ b, o.frame = .body b
  opening : s.scopes.opening = none
  closing : s.scopes.closing = none
  frames : s.scopes.variableFrames.size = scopes.length
  roots : s.scopes.rootScopes.size = scopes.length + 1
  marks : s.scopes.dirtyStack.size = scopes.length

theorem Tracks.level (h : Tracks index kind scopes s) (hl : tally t = tally s) : Tracks index kind scopes t := by
  obtain ⟨hcontrol, hopening, hclosing, hframes, hroots, hmarks⟩ := Tally.mk.inj hl
  exact ⟨hcontrol ▸ h.control, hopening.trans h.opening, hclosing.trans h.closing, hframes.trans h.frames,
    hroots.trans h.roots, hmarks.trans h.marks⟩

theorem Tracks.depth_le (h : Tracks index kind scopes s) : s.scopes.control.size ≤ scopes.length + 1 := by
  obtain ⟨bodies, hstack, hlocs, -⟩ := h.control
  have hlength := congrArg List.length hstack
  have hbodies := congrArg List.length hlocs
  have hbottom : (bottomOf kind index).length ≤ 1 := by
    cases kind <;> simp [bottomOf]
  simp only [stack, List.length_reverse, Array.length_toList, List.length_append, List.length_map] at hlength hbodies
  omega

section Scopes

variable {sc : Scopes Body}

theorem popControl_bottom (hstack : stack sc.control = bottomOf kind index) :
    sc.popControl loc = (.error ⟨.controlUnderflow, some loc⟩, sc) := by
  cases kind with
  | main => rw [Scopes.popControl, back?_of_stack_nil hstack]; rfl
  | user => rw [Scopes.popControl, back?_of_stack hstack]; rfl

theorem closeFrame_run (hclosing : sc.closing = some f) : sc.closeFrame loc = (.ok f, { sc with closing := none }) := by
  rw [Scopes.closeFrame, hclosing]

theorem back?_of_size {a : Array α} (h : a.size = n + 1) : a.back? = some a[n] := by
  rw [Array.back?, show a.size - 1 = n from by omega]
  exact Array.getElem?_eq_getElem _

end Scopes

/-! ### Opening scopes -/

def Tally.entered (c : Tally) (f : Frame Body) : Tally :=
  { c with opening := some f, roots := c.roots + 1 }

def Enters (x : Lower Unit) : Prop :=
  ∀ env s, s.scopes.rootScopes.size < maxOpenScopes → Ends x env s fun _ t => ∃ b, tally t = (tally s).entered (.body b)

theorem openRoots_ends (hroom : s.scopes.rootScopes.size < maxOpenScopes) : Ends (openRoots loc) env s fun _ t =>
      t = { s with scopes := { s.scopes with rootScopes := s.scopes.rootScopes.push ⟨s.code.size, false⟩ } } := by
  have hposition : Ends Lower.position env s fun start t => start = s.code.size ∧ t = s := ⟨rfl, rfl⟩
  refine .bind (hposition.mono ?_)
  rintro start t ⟨rfl, rfl⟩
  exact .scopes (if_neg (Nat.not_le.mpr hroom)) rfl

theorem openBody_enters (body : Body) (loc : Location) : Enters (openBody body loc) := by
  intro env s hroom
  refine .bind ((openRoots_ends hroom).mono ?_)
  rintro _ t rfl
  exact .scopes rfl ⟨body, by simp [tally, Tally.entered, Scopes.openFrame]⟩

inductive Opens (loc : Location) : Lower Unit → Prop
  | body (b : Body) : Opens loc (openBody b loc)
  | bind : Plain x → (∀ a, Opens loc (f a)) → Opens loc (x >>= f)

theorem Opens.enters (h : Opens loc x) : Enters x := by
  induction h with
  | body b => exact openBody_enters b loc
  | bind hx _ ih =>
    intro env s hroom
    refine .bind ((hx env s).mono fun a t hst => ?_)
    exact (ih a env t (roots_eq hst ▸ hroom)).mono fun _ _ ⟨b, hb⟩ => ⟨b, hst ▸ hb⟩

theorem openScope_opens (o : Opener) (start : Nat) (argv : List Operand) (loc : Location) :
    Opens loc (openScope o start argv loc) := by
  have hget : Plain (get : Lower LowerState) := fun _ _ => rfl
  cases o with
  | whenTrue => exact .bind (toBool_lays _ _).plain fun _ => .body _
  | whileTrue => exact .bind (toBool_lays _ _).plain fun _ => .bind hget fun _ => .body _
  | counted => exact .bind (toInteger_lays _ _).plain fun _ => .body _
  | forever | doNothing => exact .body _

theorem openContinuation_opens (c : Continuation) (handled : Operand) (argv : List Operand) (loc : Location) :
    Opens loc (openContinuation c handled argv loc) := by
  refine .bind (toBool_lays handled loc).plain fun earlier => ?_
  cases c with
  | elseIf =>
    exact .bind (toBool_lays _ _).plain fun _ => .bind (unary_lays _ _).plain fun _ =>
      .bind (binary_lays _ _ _).plain fun _ => .bind (binary_lays _ _ _).plain fun _ => .body _
  | otherwise => exact .bind (unary_lays _ _).plain fun _ => .bind (constant_lays _).plain fun _ => .body _

def ready (least : Nat) (b : Block) (loc : Location) : Lower (Nat × List Operand) := do
  let start ← Lower.position
  tryScopes (·.pushVariableFrame loc)
  let argv ← arguments b.args loc 0
  onScopes .saveDirty
  requireArguments b.id least argv.length loc
  return (start, argv)

theorem beginScope_eq (least : Nat) (b : Block) (loc : Location) (enter : Nat → List Operand → Lower Unit) :
    beginScope least b loc enter = (do
      let x ← ready least b loc
      enter x.1 x.2
      settle loc
      unless ← tryScopes (·.pushOpened loc) do fail .invalidControl loc) := by
  simp only [beginScope, ready, bind_assoc, pure_bind]

def Tally.readied (c : Tally) : Tally :=
  { c with frames := c.frames + 1, marks := c.marks + 1 }

theorem ready_ends (hloc : loc.path ≠ []) (hroom : s.scopes.variableFrames.size < maxOpenScopes) :
    Ends (ready least b loc) env s fun _ t => tally t = (tally s).readied := by
  have hposition : Ends Lower.position env s fun _ t => t = s := rfl
  refine .bind (hposition.mono ?_)
  rintro start _ rfl
  refine .bind (.scopes (if_neg (Nat.not_le.mpr hroom)) ?_)
  refine .bind (((arguments_lays _ hloc _).plain env _).mono fun argv s₁ h₁ => ?_)
  refine .bind (.scopes rfl ?_)
  refine .bind (((requireArguments_lays _ _ _ _).plain env _).mono fun _ s₂ h₂ => .pure (h₂.trans ?_))
  simp only [tally, Tally.mk.injEq, Array.size_push, Scopes.saveDirty, Tally.readied] at h₁ ⊢
  simp [h₁]

theorem beginScope_ends (h : Tracks index kind scopes s) (hroom : scopes.length + 1 < maxOpenScopes)
    (henter : ∀ start argv, Enters (enter start argv)) :
    Ends (beginScope least b ⟨index, [position]⟩ enter) env s fun _ t => Tracks index kind (position :: scopes) t := by
  rw [beginScope_eq]
  refine .bind ((ready_ends (List.cons_ne_nil _ _) (by rw [h.frames]; omega)).mono fun x s₁ h₁ => ?_)
  refine .bind ((henter x.1 x.2 env s₁ ((roots_eq h₁).trans h.roots ▸ hroom)).mono fun _ s₂ h₂ => ?_)
  obtain ⟨body, hentered⟩ := h₂
  refine .bind (((settle_lays _).plain env s₂).mono fun _ s₃ h₃ => ?_)
  rw [hentered, h₁] at h₃
  obtain ⟨hcontrol, hopening, hclosing, hframes, hroots, hmarks⟩ := Tally.mk.inj h₃
  have hdepth : s₃.scopes.control.size < maxOpenScopes := by
    rw [hcontrol]
    exact Nat.lt_of_le_of_lt h.depth_le hroom
  refine .bind (.scopes (pushOpened_run hopening hdepth) ?_)
  obtain ⟨bodies, hstack, hlocs, hbodies⟩ := h.control
  refine .pure ⟨⟨⟨⟨index, [position]⟩, .body body⟩ :: bodies, ?_, ?_, ?_⟩, rfl, ?_, ?_, ?_, ?_⟩
  · rw [stack_push, hcontrol, List.cons_append, ← hstack]
    rfl
  · rw [List.map_cons, hlocs, List.map_cons]
  · exact List.forall_mem_cons.mpr ⟨⟨body, rfl⟩, hbodies⟩
  · exact hclosing.trans h.closing
  · exact hframes.trans (congrArg (· + 1) h.frames)
  · exact hroots.trans (congrArg (· + 1) h.roots)
  · exact hmarks.trans (congrArg (· + 1) h.marks)

theorem closeRoots_ends (hroots : s.scopes.rootScopes.size = n + 1) :
    Ends (closeRoots loc) env s fun _ t => t.scopes = { s.scopes with rootScopes := s.scopes.rootScopes.pop } := by
  refine .bind (.scopes (popRootScope_run (back?_of_size hroots)) ?_)
  show Ends (if _ then pure _ else pure _ : Lower (List Instr)) env _ _
  split <;> exact .pure rfl

@[simp] theorem closeBody_plain (body : Body) (code : List Instr) : Plain (closeBody body code) := by
  cases body with
  | branch => exact (Plain.emit _).bind fun _ => .pure _
  | whileLoop =>
    exact (Plain.cutFrom _).bind fun _ => fresh_lays.plain.bind fun _ => (Plain.emit _).bind fun _ =>
      (constant_lays _).plain.bind fun _ => .pure _
  | countLoop => exact (Plain.emit _).bind fun _ => (unary_lays _ _).plain.bind fun _ => .pure _
  | foreverLoop => exact (Plain.emit _).bind fun _ => (constant_lays _).plain.bind fun _ => .pure _
  | plain => exact (Plain.emitAll _).bind fun _ => .pure _

theorem closeScope_ends (h : Tracks index kind (position :: scopes) s) :
    Ends (closeScope loc) env s fun _ t => Tracks index kind scopes t := by
  obtain ⟨bodies, hstack, hlocs, hbodies⟩ := h.control
  cases bodies with
  | nil => cases hlocs
  | cons o bodies =>
    obtain ⟨opener, frame⟩ := o
    obtain ⟨⟨body, rfl⟩, hrest⟩ := List.forall_mem_cons.mp hbodies
    obtain ⟨rfl, houter⟩ := List.cons.inj hlocs
    refine .bind (.scopes (popControl_run (back?_of_stack hstack)) ?_)
    refine .bind ((poll_lays.plain env _).mono fun _ s₁ h₁ => ?_)
    obtain ⟨hcontrol, hopening, hclosing, hframes, hroots, hmarks⟩ := Tally.mk.inj h₁
    refine .bind (.scopes (popVariableFrame_run (back?_of_size (hframes.trans h.frames)) _) ?_)
    refine .bind (.scopes rfl ?_)
    refine .bind (.scopes (closeFrame_run hclosing) ?_)
    refine .bind (Meets.mono (closeRoots_ends (n := scopes.length + 1) (hroots.trans h.roots)) fun code s₂ h₂ => ?_)
    have htracks : Tracks index kind scopes s₂ := by
      constructor <;> rw [h₂]
      · exact ⟨bodies, (congrArg stack hcontrol).trans (stack_pop hstack), houter, hrest⟩
      · exact hopening.trans h.opening
      · exact Array.size_pop.trans (congrArg (· - 1) (hframes.trans h.frames))
      · exact Array.size_pop.trans (congrArg (· - 1) (hroots.trans h.roots))
      · exact Array.size_pop.trans (congrArg (· - 1) (hmarks.trans h.marks))
    refine .bind ((closeBody_plain body code env s₂).mono fun value s₃ h₃ => ?_)
    refine .bind (((settle_lays _).plain env s₃).mono fun _ s₄ h₄ => ?_)
    exact .pure ((htracks.level h₃).level h₄)

theorem closeScope_underflow (h : Tracks index kind [] s) :
    closeScope loc env s = .error ⟨.controlUnderflow, some loc⟩ s := by
  obtain ⟨bodies, hstack, hlocs, -⟩ := h.control
  obtain rfl := List.map_eq_nil_iff.mp hlocs
  have hpop : tryScopes (fun sc => sc.popControl loc) env s = .error ⟨.controlUnderflow, some loc⟩ s := by
    simp only [tryScopes, popControl_bottom hstack]
  exact bind_error hpop

theorem resolve_defined {id : String} (hfind : Builtin.find? id = none) :
    Ends (resolve id loc) env s fun r t => t = s ∧ ∀ x least, r ≠ .builtin x least := by
  refine .bind (.run rfl ?_)
  simp only [hfind]
  split
  · exact .pure ⟨rfl, nofun⟩
  · split
    · split
      · exact .pure ⟨rfl, nofun⟩
      · rfl
    · rfl
    · rfl

theorem statement_ends {b : Block} (h : Tracks index kind scopes s) (hloc : loc.path ≠ []) :
    Ends (do let argv ← arguments b.args loc 0; let _ ← applyPlain resolved b.id argv loc; poll : Lower Unit) env s
      fun _ t => Tracks index kind scopes t := by
  have hlays : Lays true true (do
      let argv ← arguments b.args loc 0; let _ ← applyPlain resolved b.id argv loc; poll : Lower Unit) :=
    (arguments_lays _ hloc _).bind fun _ => (applyPlain_lays _ _ _ (.inl rfl)).bind fun _ => poll_lays
  exact (hlays.plain env s).mono fun _ t hl => h.level hl

theorem block_ends (h : Tracks index kind scopes s) (hlater : b.role = .hat → position ≠ 0)
    (hwalk : b.walk position scopes = some scopes') (hroom : scopes'.length < maxOpenScopes) :
    Ends (block b index position) env s fun _ t => Tracks index kind scopes' t := by
  cases hfind : Builtin.find? b.id with
  | none =>
    simp only [Block.walk, Block.role, hfind, Option.some.injEq] at hwalk
    subst hwalk
    refine .bind ((resolve_defined hfind).mono fun resolved t ht => ?_)
    obtain ⟨rfl, hresolved⟩ := ht
    cases resolved with
    | builtin x least => exact absurd rfl (hresolved x least)
    | function | parameter => exact statement_ends h (List.cons_ne_nil _ _)
  | some found =>
    obtain ⟨x, least⟩ := found
    simp only [Block.walk, Block.role, hfind] at hwalk hlater
    refine .bind (.run (resolve_builtin hfind) ?_)
    cases x with
    | hat =>
      dsimp only
      rw [if_pos (hlater rfl)]
      rfl
    | opener o =>
      cases hwalk
      exact beginScope_ends h hroom fun start argv => (openScope_opens o start argv _).enters
    | continuation c =>
      cases scopes with
      | nil => cases hwalk
      | cons =>
        cases hwalk
        refine .bind ((closeScope_ends h).mono fun handled t ht => ?_)
        exact beginScope_ends ht hroom fun _ argv => (openContinuation_opens c handled argv _).enters
    | close =>
      cases scopes with
      | nil => cases hwalk
      | cons =>
        cases hwalk
        exact .bind ((closeScope_ends h).mono fun _ t ht => .pure ht)
    | operation =>
      cases hwalk
      exact statement_ends h (List.cons_ne_nil _ _)

theorem block_underflow (h : Tracks index kind scopes s) (hwalk : b.walk position scopes = none) :
    block b index position env s = .error ⟨.controlUnderflow, some ⟨index, [position]⟩⟩ s := by
  cases hfind : Builtin.find? b.id with
  | none => simp only [Block.walk, Block.role, hfind, reduceCtorEq] at hwalk
  | some found =>
    obtain ⟨x, least⟩ := found
    simp only [Block.walk, Block.role, hfind] at hwalk
    have hempty : scopes = [] := by
      cases scopes with
      | nil => rfl
      | cons => cases x <;> cases hwalk
    subst hempty
    refine (bind_run (resolve_builtin hfind)).trans ?_
    cases x with
    | hat | opener | operation => cases hwalk
    | continuation | close => exact bind_error (closeScope_underflow h)

/-! ### Chains -/

def headOf : FunctionKind → String
  | .main => "on_start"
  | .user _ => "define_block"

def Tally.bare (roots : Nat) : Tally := ⟨#[], none, none, 0, roots, 0⟩

theorem hat_run (hfind : Builtin.find? b.id = some (.hat h, least)) :
    block b index 0 env s = hat h least b ⟨index, [0]⟩ env s :=
  (bind_run (resolve_builtin hfind)).trans rfl

theorem onStart_ends (h : tally s = .bare 1) :
    Ends (hat .onStart least b ⟨index, [0]⟩) env s fun _ t => Tracks index .main [] t := by
  refine .bind (((arguments_lays _ (List.cons_ne_nil _ _) _).plain env s).mono fun argv s₁ h₁ => ?_)
  refine .bind (((requireArguments_lays _ _ _ _).plain env s₁).mono fun _ s₂ h₂ => ?_)
  refine .bind (((settle_lays _).plain env s₂).mono fun _ s₃ h₃ => ?_)
  obtain ⟨hcontrol, hopening, hrest⟩ := Tally.mk.inj (h₃.trans (h₂.trans (h₁.trans h)))
  refine .bind (.scopes (by rw [Scopes.pushOpened, hopening]) ?_)
  exact .pure ⟨⟨[], hcontrol ▸ rfl, rfl, List.forall_mem_nil _⟩, hopening, hrest.1, hrest.2.1, hrest.2.2.1, hrest.2.2.2⟩

theorem beginFunction_ends (hkind : env.kind = .user name) (hroots : s.scopes.rootScopes.size = 0) :
    Ends (beginFunction arg loc) env s fun _ t => tally t = (tally s).entered .function := by
  refine .bind (.run rfl ?_)
  rw [hkind]
  cases arg with
  | blockdef =>
    have hsave : Plain (perform .rootSave []) := fun _ _ => rfl
    refine .bind ((hsave env s).mono fun _ s₁ h₁ => ?_)
    refine .bind ((openRoots_ends (by rw [(roots_eq h₁).trans hroots]; decide)).mono fun _ s₂ h₂ => ?_)
    subst h₂
    refine .bind ((poll_lays.plain env _).mono fun _ s₃ h₃ => ?_)
    refine .scopes rfl ?_
    simp only [tally, Tally.mk.injEq, Array.size_push, Tally.entered, Scopes.openFrame] at h₁ h₃ ⊢
    simp [h₃, h₁]
  | _ => rfl

theorem defineBlock_ends (hkind : env.kind = .user name) (h : tally s = .bare 0) :
    Ends (hat .defineBlock least b ⟨index, [0]⟩) env s fun _ t => Tracks index (.user name) [] t := by
  refine .bind (((arguments_lays _ (List.cons_ne_nil _ _) _).plain env s).mono fun argv s₁ h₁ => ?_)
  refine .bind (((requireArguments_lays _ _ _ _).plain env s₁).mono fun _ s₂ h₂ => ?_)
  have hbare := h₂.trans (h₁.trans h)
  refine .bind ((beginFunction_ends hkind (congrArg Tally.roots hbare)).mono fun _ s₃ h₃ => ?_)
  refine .bind (((settle_lays _).plain env s₃).mono fun _ s₄ h₄ => ?_)
  rw [h₃, hbare] at h₄
  obtain ⟨hcontrol, hopening, hrest⟩ := Tally.mk.inj h₄
  refine .bind (.scopes (pushOpened_run hopening (by rw [hcontrol]; decide)) ?_)
  exact .pure ⟨⟨[], hcontrol ▸ rfl, rfl, List.forall_mem_nil _⟩, rfl, hrest.1, hrest.2.1, hrest.2.2.1, hrest.2.2.2⟩

theorem hat_ends (h : tally s = .bare n) (hroots : n + (bottomOf env.kind 0).length = 1) (hid : b.id = headOf env.kind) :
    Ends (block b index 0) env s fun _ t => Tracks index env.kind [] t := by
  cases hkind : env.kind with
  | main =>
    rw [hkind] at hroots hid
    obtain rfl : n = 1 := hroots
    exact .of_eq (hat_run (by rw [hid]; rfl)) (onStart_ends h)
  | user =>
    rw [hkind] at hroots hid
    obtain rfl : n = 0 := Nat.succ.inj hroots
    exact .of_eq (hat_run (by rw [hid]; rfl)) (defineBlock_ends hkind h)

/-- Unless something else is wrong with the blocks that the walk passes, lowering fails where the walk does, or ends
with the scopes of the walk. -/
def Agrees (index : Nat) (env : LowerEnv) (bs : List Block) (position : Nat) (scopes : List Nat) (s : LowerState) :
    Prop :=
  match blocks index (walked bs position scopes) position env s with
  | .error e t => e.cause.isStructural = false ∧ blocks index bs position env s = .error e t
  | .ok _ t =>
    match walk bs position scopes with
    | .ok scopes' => Tracks index env.kind scopes' t ∧ blocks index bs position env s = .ok () t
    | .error n => blocks index bs position env s = .error ⟨.controlUnderflow, some ⟨index, [n]⟩⟩ t

theorem Agrees.cons (hwalk : b.walk position scopes = some scopes')
    (hb : Ends (block b index position) env s fun _ t => Agrees index env rest (position + 1) scopes' t) :
    Agrees index env (b :: rest) position scopes s := by
  simp only [Agrees, walked, walk, hwalk, blocks]
  cases hrun : block b index position env s with
  | error =>
    simp only [bind_error hrun]
    exact ⟨hb.error hrun, trivial⟩
  | ok =>
    simp only [bind_run hrun]
    exact hb.ok hrun

theorem blocks_agree (bs : List Block) : ∀ {position : Nat} {scopes : List Nat} {s : LowerState},
    Tracks index env.kind scopes s → position ≠ 0 → Shallow bs position scopes →
    Agrees index env bs position scopes s := by
  induction bs with
  | nil =>
    intro position scopes s h _ _
    exact ⟨h, rfl⟩
  | cons b rest ih =>
    intro position scopes s h hposition hshallow
    cases hwalk : b.walk position scopes with
    | none =>
      simp only [Agrees, walked, walk, hwalk, blocks]
      exact bind_error (block_underflow h hwalk)
    | some =>
      simp only [Shallow, hwalk] at hshallow
      refine .cons hwalk ((block_ends h (fun _ => hposition) hwalk hshallow.1).mono fun _ t ht => ?_)
      exact ih ht (Nat.succ_ne_zero position) hshallow.2

theorem closeChain_balanced (h : Tracks index env.kind [] s) : ∃ t, closeChain index env s = .ok () t := by
  obtain ⟨bodies, hstack, hlocs, -⟩ := h.control
  obtain rfl := List.map_eq_nil_iff.mp hlocs
  rw [closeChain_eq]
  cases hkind : env.kind with
  | main =>
    rw [hkind] at hstack
    rw [back?_of_stack_nil hstack]
    exact ⟨_, rfl⟩
  | user =>
    rw [hkind] at hstack
    rw [back?_of_stack hstack]
    exact ⟨_, rfl⟩

theorem closeChain_unterminated (h : Tracks index env.kind (position :: scopes) s) :
    ∃ t, closeChain index env s = .error ⟨.unterminated, some ⟨index, [position]⟩⟩ t := by
  obtain ⟨bodies, hstack, hlocs, hbodies⟩ := h.control
  cases bodies with
  | nil => cases hlocs
  | cons o =>
    obtain ⟨opener, frame⟩ := o
    obtain ⟨⟨body, rfl⟩, -⟩ := List.forall_mem_cons.mp hbodies
    obtain ⟨rfl, -⟩ := List.cons.inj hlocs
    rw [closeChain_eq, back?_of_stack hstack]
    cases env.kind with
    | main | user => exact ⟨_, rfl⟩

def reset (s : LowerState) : LowerState := { s with scopes := s.scopes.resetChain }

theorem chain_eq (index : Nat) (c : Chain) (env : LowerEnv) (s : LowerState) :
    chain index c env s = (do blocks index c.blocks 0; closeChain index : Lower Unit) env (reset s) := by
  rfl

structure Heads (env : LowerEnv) (s : LowerState) (c : Chain) : Prop where
  roots : s.scopes.rootScopes.size + (bottomOf env.kind 0).length = 1
  head : ∃ b rest, c = ⟨b :: rest⟩ ∧ b.id = headOf env.kind

theorem walk_head {b : Block} (hid : b.id = headOf kind) : b.walk position scopes = some scopes := by
  cases kind <;> (rw [Block.walk, Block.role, hid]; rfl)

theorem Heads.agrees (index : Nat) (h : Heads env s c) (hbs : bs <+: c.blocks) (hne : bs ≠ [])
    (hshallow : Shallow c.blocks 0 []) : Agrees index env bs 0 [] (reset s) := by
  obtain ⟨b, rest, rfl, hid⟩ := h.head
  obtain ⟨more, hmore⟩ := hbs
  cases bs with
  | nil => exact absurd rfl hne
  | cons b' bs =>
    obtain ⟨rfl, rfl⟩ := List.cons.inj hmore
    simp only [Shallow, walk_head hid] at hshallow
    refine .cons (walk_head hid) ((hat_ends rfl h.roots hid).mono fun _ t ht => ?_)
    exact blocks_agree bs ht Nat.one_ne_zero hshallow.2.of_append

theorem Heads.ne_nil (h : Heads env s c) : c.blocks ≠ [] := by
  obtain ⟨b, rest, rfl, -⟩ := h.head
  exact List.cons_ne_nil b rest

theorem Heads.failed (h : Heads env s c) (hshallow : Shallow c.blocks 0 [])
    (hrun : blocks index (walked c.blocks 0 []) 0 env (reset s) = .error e t) :
    e.cause.isStructural = false ∧ chain index c env s = .error e t := by
  have hagrees := h.agrees index (List.prefix_refl _) h.ne_nil hshallow
  rw [Agrees, hrun] at hagrees
  rw [chain_eq]
  exact ⟨hagrees.1, bind_error hagrees.2⟩

theorem Heads.passed (h : Heads env s c) (hshallow : Shallow c.blocks 0 [])
    (hrun : blocks index (walked c.blocks 0 []) 0 env (reset s) = .ok () t) : match walk c.blocks 0 [] with
    | .error n => ∃ u, chain index c env s = .error ⟨.controlUnderflow, some ⟨index, [n]⟩⟩ u
    | .ok [] => ∃ u, chain index c env s = .ok () u
    | .ok (n :: _) => ∃ u, chain index c env s = .error ⟨.unterminated, some ⟨index, [n]⟩⟩ u := by
  have hagrees := h.agrees index (List.prefix_refl _) h.ne_nil hshallow
  rw [Agrees, hrun] at hagrees
  rw [chain_eq]
  cases hwalk : walk c.blocks 0 [] with
  | error =>
    rw [hwalk] at hagrees
    exact ⟨t, bind_error hagrees⟩
  | ok scopes =>
    simp only [hwalk] at hagrees
    rw [bind_run hagrees.2]
    cases scopes with
    | nil => exact closeChain_balanced hagrees.1
    | cons => exact closeChain_unterminated hagrees.1

theorem Heads.bottom (h : Heads env s c) (hshallow : Shallow c.blocks 0 []) (hbs : bs <+: c.blocks) (hne : bs ≠ [])
    (hrun : blocks index bs 0 env (reset s) = .ok () t) (hkind : env.kind = .user name) :
    t.scopes.control[0]? = some ⟨⟨index, [0]⟩, .function⟩ := by
  have hagrees := h.agrees index hbs hne hshallow
  have htracks : ∃ scopes, Tracks index env.kind scopes t := by
    unfold Agrees at hagrees
    split at hagrees
    · rw [hrun] at hagrees
      cases hagrees.2
    · split at hagrees
      · rw [hrun] at hagrees
        cases hagrees.2
        exact ⟨_, hagrees.1⟩
      · rw [hrun] at hagrees
        cases hagrees
  obtain ⟨scopes, htracks⟩ := htracks
  obtain ⟨bodies, hstack, -⟩ := htracks.control
  rw [hkind] at hstack
  have hlist : t.scopes.control.toList = ⟨⟨index, [0]⟩, .function⟩ :: bodies.reverse := by
    rw [← List.reverse_reverse t.scopes.control.toList]
    exact (congrArg List.reverse hstack).trans (List.reverse_append)
  rw [← Array.getElem?_toList, hlist]
  rfl

end Nesting

/-! ### Programs -/

open Nesting Lower Compile

/-- A chain that starts with the program comes after the earlier ones, or is checked on its own after one of them
has failed. -/
inductive Program.Lowers (p : Program) (keep : Bool) : Nat → Chain → LowerEnv → LowerState → Prop
  | started
      (declared : declare p = .ok (functions, definitions))
      (chains : chainsHeaded p "on_start" = before ++ (index, c) :: after)
      (begun : beginMain (Flow.mainEnv p functions keep) (startState {} 0) = .ok () s)
      (earlier : mainChains (Flow.mainEnv p functions keep) before s = (none, t)) :
      Lowers p keep index c (Flow.mainEnv p functions keep) t
  | checked
      (declared : declare p = .ok (functions, definitions)) (chain : (index, c) ∈ chainsHeaded p "on_start")
      (begun : beginMain (Flow.mainEnv p functions keep) (startState g 0) = .ok () s) :
      Lowers p keep index c (Flow.mainEnv p functions keep) s
  | defined
      (declared : declare p = .ok (functions, definitions)) (definition : d ∈ definitions) :
      Lowers p keep d.chain (p.chains.getD d.chain ⟨[]⟩)
        { Flow.mainEnv p functions keep with kind := .user d.blockdef } (startState g params)

theorem mem_definitions (hdecl : declare p = .ok (functions, definitions)) (hd : d ∈ definitions) :
    (d.chain, p.chains.getD d.chain ⟨[]⟩) ∈ chainsHeaded p "define_block" := by
  have hindex : d.chain ∈ (chainsHeaded p "define_block").map Prod.fst := by
    rw [← Flow.declareFrom_chains hdecl]
    exact List.mem_map_of_mem hd
  obtain ⟨⟨index, c⟩, hx, rfl⟩ := List.mem_map.mp hindex
  rw [List.getD_eq_getElem?_getD, (Flow.mem_chainsHeaded hx).1]
  exact hx

theorem mainChains_roots (hmain : env.kind = .main) (hchains : ∀ x ∈ chains, x ∈ chainsHeaded p "on_start")
    (h : mainChains env chains (mainBegun {}) = (none, t)) : t.scopes.rootScopes.size = 1 := by
  obtain ⟨kind, functions, owners, keep⟩ := env
  obtain rfl : kind = .main := hmain
  let C := Flow.mainContext functions owners keep false false false
  obtain ⟨cells, pt, hwhole⟩ := Flow.mainChains_whole (Flow.mainBegun_whole (C := C) rfl rfl rfl) rfl (fun x hx b hb =>
    Flow.admitsBlock nofun nofun nofun (List.mem_of_getElem? (Flow.mem_chainsHeaded (hchains x hx)).1) hb) h
  have hlength := congrArg List.length hwhole.roots
  rwa [Flow.stack, List.length_reverse, Array.length_toList] at hlength

theorem Program.Lowers.heads {p : Program} (h : p.Lowers keep index c env s) : Heads env s c := by
  cases h with
  | @started functions definitions before after _ _ s _ declared chains begun earlier =>
    cases begun
    have hmem : ∀ x ∈ before, x ∈ chainsHeaded p "on_start" := fun x hx => chains ▸ List.mem_append_left _ hx
    have hself : (index, c) ∈ chainsHeaded p "on_start" := chains ▸ List.mem_append_right _ List.mem_cons_self
    exact ⟨mainChains_roots rfl hmem earlier, (Flow.mem_chainsHeaded hself).2⟩
  | checked declared chain begun =>
    refine ⟨?_, (Flow.mem_chainsHeaded chain).2⟩
    cases begun
    rfl
  | defined declared definition => exact ⟨rfl, (Flow.mem_chainsHeaded (mem_definitions declared definition)).2⟩

/-- An error of another kind in the blocks that the walk passes comes first. Without one, lowering fails at the
first block that has no scope to close, else at the innermost scope left open, and else succeeds. The body of a
defined block is never closed. -/
theorem Program.scopes_checked_exactly {p : Program}
    (h : p.Lowers keep index c env s) (hshallow : Shallow c.blocks 0 []) :
    (∀ e t, blocks index (walked c.blocks 0 []) 0 env (reset s) = .error e t →
      e.cause.isStructural = false ∧ chain index c env s = .error e t) ∧
    (∀ t, blocks index (walked c.blocks 0 []) 0 env (reset s) = .ok () t →
      match walk c.blocks 0 [] with
      | .error n => ∃ e u, chain index c env s = .error e u ∧ e.cause.kind = .internal ∧
          e.message = "Control stack underflow" ∧ e.loc = some ⟨index, [n]⟩
      | .ok (n :: _) => ∃ e u, chain index c env s = .error e u ∧ e.cause.kind = .internal ∧
          e.message = "Unterminated control block" ∧ e.loc = some ⟨index, [n]⟩
      | .ok [] => ∃ u, chain index c env s = .ok () u) ∧
    (walk c.blocks 0 [] = .ok [] → ∀ e t, chain index c env s = .error e t → e.cause.isStructural = false) ∧
    ∀ name bs t, env.kind = .user name → bs <+: c.blocks → bs ≠ [] → blocks index bs 0 env (reset s) = .ok () t →
      t.scopes.control[0]? = some ⟨⟨index, [0]⟩, .function⟩ := by
  have hheads := h.heads
  refine ⟨fun e t hrun => hheads.failed hshallow hrun, fun t hrun => ?_, fun hwalk e t hchain => ?_, ?_⟩
  · have hpassed := hheads.passed hshallow hrun
    cases hwalk : walk c.blocks 0 [] with
    | error =>
      rw [hwalk] at hpassed
      obtain ⟨u, hu⟩ := hpassed
      exact ⟨_, u, hu, rfl, rfl, rfl⟩
    | ok scopes =>
      rw [hwalk] at hpassed
      cases scopes with
      | nil => exact hpassed
      | cons =>
        obtain ⟨u, hu⟩ := hpassed
        exact ⟨_, u, hu, rfl, rfl, rfl⟩
  · cases hrun : blocks index (walked c.blocks 0 []) 0 env (reset s) with
    | error =>
      obtain ⟨hother, hsame⟩ := hheads.failed hshallow hrun
      rw [hchain] at hsame
      cases hsame
      exact hother
    | ok =>
      have hpassed := hheads.passed hshallow hrun
      rw [hwalk] at hpassed
      obtain ⟨u, hu⟩ := hpassed
      rw [hchain] at hu
      cases hu
  · exact fun name bs t hkind hbs hne hrun => hheads.bottom hshallow hbs hne hrun hkind

/-- The body of a defined block with one `end` too many, after a scope that another one goes on from. -/
def overclosed : List Block :=
  [.definition "f", .mk "if" [.block (.mk "true" [])], .mk "else" [], .mk "end" [], .mk "end" []]

def overclosedEnv : LowerEnv := ⟨.user "f", [⟨"f", []⟩], [], false⟩

def succeeds (x : Lower Unit) (env : LowerEnv) (s : LowerState) : Bool :=
  match x env s with
  | .ok _ _ => true
  | .error _ _ => false

/-- The last `end` is the one that fails. -/
theorem scopes_checked_exactly_overclosed :
    Program.Lowers ⟨[⟨overclosed⟩], [⟨"f", []⟩]⟩ false 0 ⟨overclosed⟩ overclosedEnv (startState {} 0) ∧
    Shallow overclosed 0 [] ∧
    ∃ e u, chain 0 ⟨overclosed⟩ overclosedEnv (startState {} 0) = .error e u ∧ e.cause.kind = .internal ∧
      e.message = "Control stack underflow" ∧ e.loc = some ⟨0, [4]⟩ := by
  have hdeclared : declare ⟨[⟨overclosed⟩], [⟨"f", []⟩]⟩ = .ok ([⟨"f", []⟩], [⟨0, "f"⟩]) := rfl
  have hlowers : Program.Lowers ⟨[⟨overclosed⟩], [⟨"f", []⟩]⟩ false 0 ⟨overclosed⟩ overclosedEnv (startState {} 0) :=
    .defined hdeclared List.mem_cons_self
  have hshallow : Shallow overclosed 0 [] := by decide +kernel
  refine ⟨hlowers, hshallow, ?_⟩
  have hpassed := (Program.scopes_checked_exactly hlowers hshallow).2.1
  have hwalk : walk overclosed 0 [] = .error 4 := rfl
  rw [hwalk] at hpassed
  cases hrun : blocks 0 (walked overclosed 0 []) 0 overclosedEnv (reset (startState {} 0)) with
  | ok _ t => exact hpassed t hrun
  | error =>
    have hfine : succeeds (blocks 0 (walked overclosed 0 []) 0) overclosedEnv (reset (startState {} 0)) = true := by
      decide +kernel
    rw [succeeds, hrun] at hfine
    cases hfine

end Blockwork
