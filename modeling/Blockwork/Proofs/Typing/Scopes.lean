import Blockwork.Proofs.Lowering.Scopes
import Blockwork.Proofs.Typing.Blocks

/-! # Entering a scope
What a block that opens a scope leaves depends on the next free register and on the mark of the
statement, and not on where the code stands: only a `while` remembers where its test starts. -/

namespace Blockwork

def Body.movedTo (b : Body) (start : Nat) : Body :=
  match b with
  | .whileLoop _ cond flush => .whileLoop start cond flush
  | b => b

def Body.Drops (mark : Bool) : Body → Prop
  | .whileLoop _ _ flush => flush = mark
  | _ => True

def Body.registers : Body → List (Reg × Content)
  | .branch run handled => [(run, .value .bool), (handled, .value .bool)]
  | .whileLoop _ cond _ => [(cond, .value .bool)]
  | .countLoop count => [(count, .value .integer)]
  | _ => []

namespace Typing

open Lower
open Flow

variable {ctx : Setting} {known : List (Reg × Content)}

theorem Output.scopes_onto {o : Output} (hr : o.required = false) (hd : o.dirty = .none) (s : LowerState) :
    (o.onto s).scopes = s.scopes := by
  simp only [Output.onto, hr, hd]
  rfl

theorem Adds.scopes_onto (h : Adds ctx false first known gives o) (s : LowerState) :
    (o.onto s).scopes = s.scopes := by
  obtain ⟨hr, hd, -⟩ := h.quiet rfl
  exact o.scopes_onto hr hd s

/-! ### Opening a body -/

theorem openBody_size (h : openBody body loc env s = .ok u t) : s.scopes.rootScopes.size < maxOpenScopes := by
  obtain ⟨⟨⟩, s₁, hroots, -⟩ := bind_ok h
  obtain ⟨start, s₂, hpos, hpush⟩ := bind_ok hroots
  cases hpos
  obtain ⟨sc, hsc, -⟩ := tryScopes_ok hpush
  unfold Scopes.pushRootScope at hsc
  split at hsc
  · cases hsc
  · omega

theorem openBody_run (h : s.scopes.rootScopes.size < maxOpenScopes) (body : Body) (loc : Location) (env : LowerEnv) :
    openBody body loc env s = .ok () (bodyOpened s body) := by
  have hpush : s.scopes.pushRootScope s.code.size (some loc) =
      (.ok (), { s.scopes with rootScopes := s.scopes.rootScopes.push ⟨s.code.size, false⟩ }) :=
    if_neg (Nat.not_le_of_lt h)
  have hroots : openRoots loc env s = .ok () { s with scopes := { s.scopes with
      rootScopes := s.scopes.rootScopes.push ⟨s.code.size, false⟩ } } := by
    show tryScopes (·.pushRootScope s.code.size (some loc)) env s = _
    simp only [tryScopes, hpush]
  simp only [openBody, bind, ReaderT.bind, EStateM.bind, hroots]
  rfl

/-- A scope is entered at `start`: its condition is lowered without touching the scopes, and then its
body is opened. -/
def Opening (ctx : Setting) (known : List (Reg × Content)) (enter : Nat → Lower Unit) : Prop :=
  ∀ env start s u t, settingOf env = ctx → enter start env s = .ok u t → ∃ (o : Output) (b : Body),
    t = bodyOpened (o.onto s) (b.movedTo start) ∧
    b.Drops s.scopes.openingDirty ∧
    Adds ctx false s.nextReg known b.registers o ∧
    ∀ keep start' s', s'.nextReg = s.nextReg → s'.scopes.openingDirty = s.scopes.openingDirty →
      s'.scopes.rootScopes.size = s.scopes.rootScopes.size →
      enter start' (keeping env keep) s' = .ok () (bodyOpened (o.onto s') (b.movedTo start'))

namespace Opening

theorem body (hk : b.registers ⊆ known) (hmoved : ∀ start, b.movedTo start = b) (loc : Location) :
    Opening ctx known fun _ => openBody b loc := by
  intro env start s u t _ hx
  have hsize := openBody_size hx
  refine ⟨.none s.nextReg, b, ?_, ?_, .none hk, fun keep start' s' hnext _ hroots => ?_⟩
  · rw [Output.onto_none, hmoved]
    exact openBody_ok hx
  · cases b with
    | whileLoop start => cases hmoved (start + 1)
    | _ => trivial
  · rw [← hnext, Output.onto_none, hmoved]
    exact openBody_run (hroots ▸ hsize) b loc _

theorem whileTest {cond : Reg} (hk : (cond, .value .bool) ∈ known) (loc : Location) : Opening ctx known fun start =>
      (do openBody (.whileLoop start cond (← get).scopes.openingDirty) loc) := by
  intro env start s u t _ hx
  have hopen : openBody (.whileLoop start cond s.scopes.openingDirty) loc env s = .ok u t := hx
  have hsize := openBody_size hopen
  refine ⟨.none s.nextReg, .whileLoop start cond s.scopes.openingDirty, ?_, rfl,
    .none (subset_singleton hk), fun keep start' s' hnext hdirty hroots => ?_⟩
  · rw [Output.onto_none]
    exact openBody_ok hopen
  · rw [← hnext, Output.onto_none]
    show openBody (.whileLoop start' cond s'.scopes.openingDirty) loc _ s' = _
    rw [hdirty]
    exact openBody_run (hroots ▸ hsize) _ loc _

theorem bind {α : Type} {x : Lower α} {gives : α → List (Reg × Content)} {enter : α → Nat → Lower Unit}
    (hx : Straight ctx false known x gives) (h : ∀ a, Opening ctx (gives a ++ known) (enter a)) :
    Opening ctx known fun start => (do enter (← x) start) := by
  intro env start s u t henv hrun
  obtain ⟨a, s₁, hxa, henter⟩ := bind_ok hrun
  obtain ⟨o, rfl, hnat, hadds⟩ := hx env s a s₁ henv hxa
  obtain ⟨o', b, rfl, hdrops, hadds', hnat'⟩ := h a env start (o.onto s) u t henv henter
  have hscopes := hadds.scopes_onto
  refine ⟨o.followedBy o', b, ?_, hscopes s ▸ hdrops, hadds.followedBy hadds',
    fun keep start' s' hnext hdirty hroots => ?_⟩
  · rw [o.onto_followedBy]
  · have hfirst := hnat keep s' hnext
    have hsecond := hnat' keep start' (o.onto s') rfl (by rw [hscopes, hscopes, hdirty])
      (by rw [hscopes, hscopes, hroots])
    simp only [Bind.bind, ReaderT.bind, EStateM.bind, hfirst, hsecond, o.onto_followedBy o' s']

end Opening

theorem openScope_opening (o : Opener) (argv : List Operand) (loc : Location) :
    Opening ctx (argv.flatMap contents) fun start => openScope o start argv loc := by
  have h₀ := contents_arg argv 0
  cases o with
  | whenTrue =>
    refine .bind ((toBool_straight _ loc).weaken h₀) fun cond => ?_
    exact .body (subset_pair List.mem_cons_self List.mem_cons_self) (fun _ => rfl) loc
  | whileTrue =>
    refine .bind ((toBool_straight _ loc).weaken h₀) fun cond => ?_
    exact .whileTest List.mem_cons_self loc
  | counted =>
    refine .bind ((toInteger_straight _ loc).weaken h₀) fun count => ?_
    exact .body (subset_singleton List.mem_cons_self) (fun _ => rfl) loc
  | forever | doNothing => exact .body (List.nil_subset _) (fun _ => rfl) loc

theorem openContinuation_opening (c : Continuation) (handled : Operand) (argv : List Operand) (loc : Location) :
    Opening ctx (contents handled ++ argv.flatMap contents) fun _ =>
      openContinuation c handled argv loc := by
  have h₀ := contents_arg argv 0
  refine .bind ((toBool_straight handled loc).weaken (List.subset_append_left _ _)) fun earlier => ?_
  cases c with
  | elseIf =>
    refine .bind ((toBool_straight _ loc).weaken ?_) fun cond => ?_
    · exact List.Subset.trans h₀ (List.subset_append_of_subset_right _ (List.subset_append_right _ _))
    refine .bind (unary_straight (List.mem_append_right _ List.mem_cons_self) rfl) fun free => ?_
    refine .bind (binary_straight List.mem_cons_self (List.mem_append_right _ List.mem_cons_self) rfl) fun run => ?_
    have hearlier : (earlier, Content.value .bool) ∈ [(run, Content.value .bool)] ++
        ([(free, .value .bool)] ++ ([(cond, .value .bool)] ++ ([(earlier, .value .bool)] ++
          (contents handled ++ argv.flatMap contents)))) := by simp
    have hcond : (cond, Content.value .bool) ∈ [(run, Content.value .bool)] ++
        ([(free, .value .bool)] ++ ([(cond, .value .bool)] ++ ([(earlier, .value .bool)] ++
          (contents handled ++ argv.flatMap contents)))) := by simp
    refine .bind (binary_straight hearlier hcond rfl) fun done => ?_
    exact .body (subset_pair (List.mem_append_right _ List.mem_cons_self) List.mem_cons_self) (fun _ => rfl) loc
  | otherwise =>
    refine .bind (unary_straight List.mem_cons_self rfl) fun run => ?_
    refine .bind (constant_straight (.bool true)) fun done => ?_
    exact .body (subset_pair (List.mem_append_right _ List.mem_cons_self) List.mem_cons_self) (fun _ => rfl) loc

end Typing

end Blockwork
