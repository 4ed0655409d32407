import Blockwork.Proofs.Tracing.Variables

/-! # Plain blocks
A plain block, with everything inside its arguments, adds the code that its marks announce. -/

namespace Blockwork

open Bindings

namespace Bindings

variable (B : Bindings)

theorem afterAll_append (ms ms' : List Mark) : B.afterAll (ms ++ ms') = (B.afterAll ms).afterAll ms' := by
  induction ms generalizing B with
  | nil => rfl
  | cons m ms ih => exact ih (B.after m)

theorem accesses_append (ms ms' : List Mark) :
    B.accesses (ms ++ ms') = B.accesses ms ++ (B.afterAll ms).accesses ms' := by
  induction ms generalizing B with
  | nil => rfl
  | cons m ms ih =>
    simp only [List.cons_append, accesses, afterAll, ih, List.append_assoc]

theorem Tells.append {B : Bindings} (h : B.Tells ms) (h' : (B.afterAll ms).Tells ms') : B.Tells (ms ++ ms') := by
  induction ms generalizing B with
  | nil => exact h'
  | cons m ms ih => exact ⟨h.1, ih h.2 h'⟩

theorem target?_of_find? {B : Bindings} (h : B.find? name = some b) : B.target? name = b.stored? := by
  rw [target?, h]
  rfl

theorem note_of_other (hd : n.operation? ≠ some .declare) (hg : n.operation? ≠ some .getVariable)
    (hs : n.operation? ≠ some .setVariable) : B.access? n = none ∧ B.afterNote n = B ∧ B.TellsNote n := by
  refine ⟨?_, ?_, fun h => absurd h hg, fun h => absurd h hs⟩
  · unfold access?
    split
    · contradiction
    · contradiction
    · contradiction
    · rfl
  · unfold afterNote
    split
    · contradiction
    · contradiction
    · contradiction
    · rfl

end Bindings

def Mark.Quiet : Mark → Prop
  | .noted n => n.operation? ≠ some .declare
  | _ => False

def Mark.IsNote : Mark → Prop
  | .noted _ => True
  | _ => False

theorem Mark.Quiet.isNote {m : Mark} (h : m.Quiet) : m.IsNote := by
  cases m with
  | noted n => trivial
  | opened | closed => exact h

namespace Tracing

open Lower Typing Instr
open Flow hiding known

/-! ### What stays outside -/

structure Nests (B B' : Bindings) : Prop where
  main : B'.main = B.main
  outer : outerLocals B'.blocks B'.own = outerLocals B.blocks B.own
  globals : B.isTop = false → storedIn B'.globals = storedIn B.globals

structure Stays (B B' : Bindings) : Prop extends Nests B B' where
  locals : storedIn B'.locals = storedIn B.locals

theorem isTop_eq (B : Bindings) : B.isTop = (B.main && (outerLocals B.blocks B.own).isEmpty) := by
  obtain ⟨main, blocks, own, globals⟩ := B
  cases blocks <;> rfl

theorem Nests.refl (B : Bindings) : Nests B B := ⟨rfl, rfl, fun _ => rfl⟩

theorem Nests.trans (h : Nests B B') (h' : Nests B' B'') : Nests B B'' := by
  have htop : B'.isTop = B.isTop := by rw [isTop_eq, isTop_eq, h.outer, h.main]
  exact ⟨h'.main.trans h.main, h'.outer.trans h.outer,
    fun hlow => (h'.globals (htop.trans hlow)).trans (h.globals hlow)⟩

theorem Stays.refl (B : Bindings) : Stays B B := ⟨.refl B, rfl⟩

theorem Stays.trans (h : Stays B B') (h' : Stays B' B'') : Stays B B'' :=
  ⟨h.toNests.trans h'.toNests, h'.locals.trans h.locals⟩

theorem declare_nests (B : Bindings) (b : Binding) : Nests B (B.declare b) := by
  cases htop : B.isTop with
  | true =>
    rw [Bindings.globals_declare htop]
    exact ⟨rfl, rfl, fun hlow => absurd hlow (by rw [htop]; exact Bool.noConfusion)⟩
  | false =>
    obtain ⟨-, hglobals, -, houter, hmain, -⟩ := Bindings.locals_declare (b := b) htop
    exact ⟨hmain, houter, fun _ => by rw [hglobals]⟩

theorem assign_stays (hb : B.find? name = some b) (hheld : b.held = .text old) (text : String) :
    Stays B (B.assign name text) := by
  rw [Bindings.find?_eq] at hb
  cases hlocal : B.locals.find? (·.name == name) with
  | some c =>
    rw [hlocal, Option.some_or] at hb
    obtain rfl := Option.some.inj hb
    have htext : Names.IsText name B.locals := fun d hd => by
      cases hlocal.symm.trans hd
      exact ⟨old, hheld⟩
    obtain ⟨hlocals, hglobals, hblocks, hown, hmain⟩ := Bindings.assign_local (any_of_find? hlocal) htext text
    refine ⟨⟨hmain, (scopes_of_shape hblocks hown).2, fun _ => by rw [hglobals]⟩, ?_⟩
    rw [hlocals, storedIn_of_shape (Names.shape_retext htext)]
  | none =>
    rw [hlocal, Option.none_or] at hb
    have htext : Names.IsText name B.globals := fun d hd => by
      cases hb.symm.trans hd
      exact ⟨old, hheld⟩
    rw [Bindings.assign_global (any_of_find?_none hlocal)]
    exact ⟨⟨rfl, rfl, fun _ => storedIn_of_shape (Names.shape_retext htext)⟩, rfl⟩

theorem afterNote_nests (h : B.TellsNote n) :
    Nests B (B.afterNote n) ∧ (n.operation? ≠ some .declare → Stays B (B.afterNote n)) := by
  unfold afterNote
  split
  · exact ⟨declare_nests B _, fun hd => absurd ‹_› hd⟩
  · exact ⟨declare_nests B _, fun hd => absurd ‹_› hd⟩
  · rename_i name text hop harg harg₁
    obtain ⟨name', b, hname, hb, htakes⟩ := h.sets hop
    cases harg.symm.trans hname
    rw [harg₁] at htakes
    cases hheld : b.held with
    | stored x =>
      rw [hheld] at htakes
      obtain ⟨r, hr⟩ := htakes
      cases hr
    | text old =>
      have hstays := assign_stays hb hheld text
      exact ⟨hstays.toNests, fun _ => hstays⟩
  · exact ⟨.refl B, fun _ => .refl B⟩

theorem afterAll_nests (h : B.Tells ms) (hms : ∀ m ∈ ms, m.IsNote) : Nests B (B.afterAll ms) := by
  induction ms generalizing B with
  | nil => exact .refl B
  | cons m ms ih =>
    have hm := hms m List.mem_cons_self
    cases m with
    | noted n =>
      exact (afterNote_nests (h.1 n rfl)).1.trans (ih h.2 fun m hm => hms m (List.mem_cons_of_mem _ hm))
    | opened | closed => exact hm.elim

theorem afterAll_stays (h : B.Tells ms) (hms : ∀ m ∈ ms, m.Quiet) : Stays B (B.afterAll ms) := by
  induction ms generalizing B with
  | nil => exact .refl B
  | cons m ms ih =>
    have hm := hms m List.mem_cons_self
    cases m with
    | noted n =>
      exact ((afterNote_nests (h.1 n rfl)).2 hm).trans (ih h.2 fun m hm => hms m (List.mem_cons_of_mem _ hm))
    | opened | closed => exact hm.elim

theorem afterAll_globals {B : Bindings} (h : B.Tells ms) (hmain : B.main = false) :
    storedIn (B.afterAll ms).globals = storedIn B.globals := by
  induction ms generalizing B with
  | nil => rfl
  | cons m ms ih =>
    cases m with
    | opened | closed => exact ih h.2 hmain
    | noted n =>
      have hnests := (afterNote_nests (h.1 n rfl)).1
      have htop : B.isTop = false := by rw [isTop, hmain, Bool.false_and]
      exact (ih h.2 (hnests.main.trans hmain)).trans (hnests.globals htop)

structure Marked (env : LowerEnv) (ms : List Mark) (W : World) (F : Facts) (B : Bindings) (s : LowerState)
    (W' : World) (F' : Facts) (t : LowerState) : Prop where
  extends_ : Extends env (B.accesses ms) (valuesOf ms) W F s W' F' (B.afterAll ms) t
  tells : B.Tells ms

theorem valuesOf_append (ms ms' : List Mark) : valuesOf (ms ++ ms') = valuesOf ms ++ valuesOf ms' :=
  List.flatMap_append

section

variable {B' : Bindings}
variable {id : String}

theorem Marked.refl (h : Fits env W F B s) : Marked env [] W F B s W F s :=
  ⟨.refl h, trivial⟩

theorem Marked.trans (h : Marked env ms W F B s W' F' t) (h' : Marked env ms' W' F' (B.afterAll ms) t W'' F'' u) :
    Marked env (ms ++ ms') W F B s W'' F'' u := by
  have hboth := h.extends_.trans h'.extends_
  refine ⟨?_, h.tells.append h'.tells⟩
  rw [accesses_append, afterAll_append, valuesOf_append]
  exact hboth

theorem Fits.performed {o : Output} (h : Fits env W F B s) (hcode : o.code = [.entry s.nextReg e []])
    (hnext : o.next = s.nextReg + 1) (he : e.accepts [] = true) :
    ∃ W' F', Extends env [] [] W F s W' F' B (o.onto s) := by
  have hkind : (W.kinds ++ [e.yields])[s.nextReg]? = some e.yields := by
    rw [h.next]
    simp
  have hline : Line W.ctx (W.kinds ++ [e.yields]) F.written o.code (s.nextReg :: F.written) := by
    rw [hcode]
    exact .cons (.entry .nil rfl he hkind) .nil
  refine ⟨_, _, h.line (untouched_onto o s) (o.code_onto s) ?_ hline ?_⟩
  · rw [Output.nextReg_onto, hnext, h.next, List.length_append]
    rfl
  · rw [Output.nextReg_onto, hnext, hcode]
    exact .write rfl

theorem settle_extends (h : Fits env W F B s) (hrun : settle loc env s = .ok x t) :
    ∃ W' F', Extends env [] [] W F s W' F' B t := by
  have hsettle : settle loc env s = (if (!loc.hasParent && s.scopes.dirty) = true then
      .ok () ((⟨[.entry s.nextReg .flush []], s.nextReg + 1, false, some false⟩ : Output).onto s)
      else .ok () s) := by
    show (if (!loc.hasParent && s.scopes.dirty) = true then _ else Pure.pure () : Lower Unit) env s = _
    cases !loc.hasParent && s.scopes.dirty <;> rfl
  rw [hsettle] at hrun
  split at hrun
  · cases hrun
    exact h.performed rfl rfl rfl
  · cases hrun
    exact ⟨W, F, .refl h⟩

theorem variableName_literal (h : variableName arg loc env s = .ok name t) : arg = .literal name ∧ t = s := by
  cases arg with
  | literal text =>
    obtain ⟨rfl, rfl⟩ := pure_ok h
    exact ⟨rfl, rfl⟩
  | nothing | blockdef | reg => exact (fail_ok h).elim

def Noted (env : LowerEnv) (n : Note) (W : World) (F : Facts) (B : Bindings) (s t : LowerState) : Prop :=
  ∃ W' F', Extends env (B.accessOf (.noted n)).toList [] W F s W' F' (B.afterNote n) t ∧
    HasAll W'.kinds F'.written (contents n.value) ∧ B.TellsNote n

theorem Fits.other (h : Fits env W F B s) (hd : n.operation? ≠ some .declare) (hg : n.operation? ≠ some .getVariable)
    (hs : n.operation? ≠ some .setVariable) (hx : Straight (settingOf env) true known x contents)
    (hk : HasAll W.kinds F.written known) (hrun : x env s = .ok n.value t) : Noted env n W F B s t := by
  obtain ⟨haccess, hafter, htells⟩ := note_of_other (B := B) hd hg hs
  obtain ⟨W', F', hext, hgives⟩ := h.straight hx hk hrun
  refine ⟨W', F', ?_, hgives, htells⟩
  rw [accessOf, haccess, hafter]
  exact hext

theorem declarationBlock_noted (h : Fits env W F B s) (hn : n.resolved = .builtin (.operation .declare) least)
    (hstart : n.start = reached s) (hk : HasAll W.kinds F.written (n.argv.flatMap contents))
    (hlevel : n.loc.hasParent = false → env.kind = .main → s.scopes.control.size = s.scopes.variableFrames.size)
    (hrun : operation .declare n.argv n.loc env s = .ok n.value t) : Noted env n W F B s t := by
  have hop : n.operation? = some .declare := by
    rw [Note.operation?, hn]
  have htells : B.TellsNote n := by
    refine ⟨fun h => ?_, fun h => ?_⟩
    · cases hop.symm.trans h
    · cases hop.symm.trans h
  cases hparent : n.loc.hasParent with
  | true =>
    simp only [operation, declarationBlock, hparent, if_true] at hrun
    exact (fail_ok hrun).elim
  | false =>
    simp only [operation, declarationBlock, hparent, if_neg Bool.false_ne_true] at hrun
    obtain ⟨name, s₁, hname, hrest⟩ := bind_ok hrun
    obtain ⟨harg, rfl⟩ := variableName_literal hname
    split at hrest
    · exact (fail_ok hrest).elim
    obtain ⟨⟨⟩, s₂, hdeclare, hlast⟩ := bind_ok hrest
    obtain ⟨hvalue, rfl⟩ := pure_ok hlast
    have hk₁ : HasAll W.kinds F.written (contents (n.argv.getD 1 .nothing)) := fun y hy =>
      hk y (contents_arg n.argv 1 hy)
    have hdeclares := declareVariable_extends h hk₁ (hlevel hparent) hdeclare
    cases harg₁ : n.argv.getD 1 .nothing with
    | nothing | blockdef =>
      rw [harg₁] at hdeclares
      cases hdeclares
    | literal text =>
      rw [harg₁] at hdeclares
      cases hdeclares with
      | text hext =>
        refine ⟨W, F, ?_, ?_, htells⟩
        · simp only [accessOf, access?, afterNote, hop, harg, harg₁]
          exact hext
        · rw [hvalue, harg₁]
          exact .nil
    | reg ty r =>
      rw [harg₁] at hdeclares
      cases hdeclares with
      | @stored _ _ W' F' hext =>
        refine ⟨W', F', ?_, ?_, htells⟩
        · simp only [accessOf, access?, afterNote, declared, hop, harg,
            harg₁, hstart]
          exact hext
        · rw [hvalue]
          exact hext.hasAll hk₁

theorem getVariable_noted (h : Fits env W F B s) (hn : n.resolved = .builtin (.operation .getVariable) least)
    (hstart : n.start = reached s) (hrun : operation .getVariable n.argv n.loc env s = .ok n.value t) :
    Noted env n W F B s t := by
  have hop : n.operation? = some .getVariable := by
    rw [Note.operation?, hn]
  obtain ⟨name, s₁, hname, hrest⟩ := bind_ok hrun
  obtain ⟨harg, rfl⟩ := variableName_literal hname
  obtain ⟨b, W', F', hb, hgives, hext, hhas⟩ := loadVariable_extends h hrest
  refine ⟨W', F', ?_, hhas, ⟨fun _ => ⟨name, b, harg, hb, hgives⟩, fun h => ?_⟩⟩
  · have hafter : B.afterNote n = B := by
      simp only [afterNote, hop]
    have haccess : (B.accessOf (.noted n)).toList = readOf (reached s₁) b n.value := by
      simp only [accessOf, access?, hop, harg, hstart]
      cases n.value with
      | reg ty d => cases hheld : b.stored? <;> simp [readOf, hheld, target?_of_find? hb]
      | _ => rfl
    rw [haccess, hafter]
    exact hext
  · cases hop.symm.trans h

theorem setVariable_noted (h : Fits env W F B s) (hn : n.resolved = .builtin (.operation .setVariable) least)
    (hstart : n.start = reached s) (hk : HasAll W.kinds F.written (n.argv.flatMap contents))
    (hrun : operation .setVariable n.argv n.loc env s = .ok n.value t) : Noted env n W F B s t := by
  have hop : n.operation? = some .setVariable := by
    rw [Note.operation?, hn]
  obtain ⟨name, s₁, hname, hrest⟩ := bind_ok hrun
  obtain ⟨harg, rfl⟩ := variableName_literal hname
  obtain ⟨⟨⟩, s₂, hstore, hlast⟩ := bind_ok hrest
  obtain ⟨hvalue, rfl⟩ := pure_ok hlast
  have hk₁ : HasAll W.kinds F.written (contents (n.argv.getD 1 .nothing)) := fun y hy =>
    hk y (contents_arg n.argv 1 hy)
  obtain ⟨b, W', F', hb, htakes, hext⟩ := storeVariable_extends h hk₁ hstore
  refine ⟨W', F', ?_, ?_, ⟨fun h => ?_, fun _ => ⟨name, b, harg, hb, htakes⟩⟩⟩
  · have hafter : B.afterNote n = Bindings.assigned B name (n.argv.getD 1 .nothing) := by
      simp only [afterNote, hop, harg]
      cases n.argv.getD 1 .nothing <;> rfl
    have haccess : (B.accessOf (.noted n)).toList = assignOf (reached s₁) b (n.argv.getD 1 .nothing) := by
      simp only [accessOf, access?, hop, harg, hstart]
      cases n.argv.getD 1 .nothing with
      | reg ty r => cases hheld : b.stored? <;> simp [assignOf, hheld, target?_of_find? hb]
      | _ => rfl
    rw [haccess, hafter]
    exact hext
  · rw [hvalue]
    exact hext.hasAll hk₁
  · cases hop.symm.trans h

theorem plainValue_noted (h : Fits env W F B s) (hstands : Stands env id n.resolved) (hstart : n.start = reached s)
    (hk : HasAll W.kinds F.written (n.argv.flatMap contents))
    (hlevel : n.loc.hasParent = false → env.kind = .main → s.scopes.control.size = s.scopes.variableFrames.size)
    (hrun : plainValue n.resolved id n.argv n.loc env s = .ok n.value t) : Noted env n W F B s t := by
  cases hresolved : n.resolved with
  | builtin b least =>
    rw [hresolved] at hrun
    cases b with
    | operation op =>
      obtain ⟨⟨⟩, s₁, hrequire, hop⟩ := bind_ok hrun
      obtain ⟨-, rfl⟩ := requireArguments_ok hrequire
      by_cases hd : op = .declare
      · subst hd
        exact declarationBlock_noted h hresolved hstart hk hlevel hop
      by_cases hg : op = .getVariable
      · subst hg
        exact getVariable_noted h hresolved hstart hop
      by_cases hs : op = .setVariable
      · subst hs
        exact setVariable_noted h hresolved hstart hk hop
      have hnote : n.operation? = some op := by
        rw [Note.operation?, hresolved]
      refine h.other ?_ ?_ ?_ (operation_straight op n.argv n.loc hd hg hs) hk hop
      · rw [hnote]
        exact fun he => hd (Option.some.inj he)
      · rw [hnote]
        exact fun he => hg (Option.some.inj he)
      · rw [hnote]
        exact fun he => hs (Option.some.inj he)
    | _ =>
      exact (fail_ok hrun).elim
  | function index decl =>
    rw [hresolved] at hrun hstands
    have hnote : n.operation? = none := by
      rw [Note.operation?, hresolved]
    have harity : arityOf env index = some decl.params.length := by
      rw [arityOf, show env.functions[index]? = some decl from hstands]
      rfl
    refine h.other ?_ ?_ ?_ (callFunction_straight n.argv n.loc harity) hk hrun <;>
      · rw [hnote]
        simp
  | parameter i =>
    rw [hresolved] at hrun hstands
    have hnote : n.operation? = none := by
      rw [Note.operation?, hresolved]
    obtain ⟨owner, j, d, hkind, hd, hi⟩ := hstands
    have hparam : HasAll W.kinds F.written [(i, .value .any)] := fun y hy => by
      obtain rfl := List.mem_singleton.mp hy
      exact h.params owner j d hkind hd i hi
    have hpure : Straight (settingOf env) true [(i, .value .any)] (pure (.reg .any i)) contents :=
      .pure (List.Subset.refl _)
    refine h.other ?_ ?_ ?_ hpure hparam hrun <;>
      · rw [hnote]
        simp

theorem applyPlain_marked (h : Fits env W F B s) (hstands : Stands env id resolved)
    (hk : HasAll W.kinds F.written (argv.flatMap contents))
    (hlevel : loc.hasParent = false → env.kind = .main → s.scopes.control.size = s.scopes.variableFrames.size)
    (hrun : applyPlain resolved id argv loc env s = .ok v t) :
    ∃ W' F', Marked env [.noted ⟨loc, resolved, argv, v, reached s, reached t⟩] W F B s W' F' t ∧
      HasAll W'.kinds F'.written (contents v) := by
  let n : Note := ⟨loc, resolved, argv, v, reached s, reached t⟩
  rw [applyPlain_eq] at hrun
  obtain ⟨w, s₁, hvalue, hrest⟩ := bind_ok hrun
  obtain ⟨⟨⟩, s₂, hsettle, hlast⟩ := bind_ok hrest
  obtain ⟨rfl, rfl⟩ := pure_ok hlast
  obtain ⟨W₁, F₁, hext, hhas, htells⟩ := plainValue_noted (n := n) h hstands rfl hk hlevel hvalue
  obtain ⟨W₂, F₂, hend⟩ := settle_extends hext.fits hsettle
  have hhas₂ := hend.hasAll hhas
  have hnoted := (hext.trans hend).trans (hend.fits.note hhas₂)
  refine ⟨{ W₂ with values := W₂.values ++ (contents v).map fun x => (reached t, x) }, F₂,
    ⟨?_, fun m hm => ?_, trivial⟩, hhas₂⟩
  · simpa [accesses, afterAll, Bindings.after, valuesOf, n] using hnoted
  · cases hm
    exact htells

theorem quiet_of_parent (hloc : loc.hasParent = true) (hrun : applyPlain resolved id argv loc env s = .ok v t) :
    (Mark.noted ⟨loc, resolved, argv, v, i, j⟩).Quiet := by
  intro hop
  cases resolved with
  | builtin b least =>
    cases b with
    | operation op =>
      obtain rfl : op = .declare := Option.some.inj hop
      rw [applyPlain_eq] at hrun
      obtain ⟨w, s₁, hvalue, -⟩ := bind_ok hrun
      obtain ⟨⟨⟩, s₂, -, hdeclare⟩ := bind_ok hvalue
      simp only [operation, declarationBlock, hloc, if_true] at hdeclare
      exact fail_ok hdeclare
    | _ => cases hop
  | function | parameter => cases hop

theorem plain_marked (hresolve : resolve id loc env s = .ok resolved s)
    (hargs : arguments args loc 0 env s = .ok argv t)
    (h : Marked env (marksOfArguments args loc 0 env s) W F B s W' F' t)
    (hk : HasAll W'.kinds F'.written (argv.flatMap contents))
    (hlevel : loc.hasParent = false → env.kind = .main → s.scopes.control.size = s.scopes.variableFrames.size)
    (hrun : applyPlain resolved id argv loc env t = .ok v u) :
    ∃ W'' F'', Marked env (marksOfPlain (.mk id args) loc env s) W F B s W'' F'' u ∧
      HasAll W''.kinds F''.written (contents v) ∧
      marksOfPlain (.mk id args) loc env s = marksOfArguments args loc 0 env s ++
        [.noted ⟨loc, resolved, argv, v, reached t, reached u⟩] := by
  have hlevel' : loc.hasParent = false → env.kind = .main → t.scopes.control.size = t.scopes.variableFrames.size := by
    rw [h.extends_.shaped.control, h.extends_.shaped.frames]
    exact hlevel
  obtain ⟨W'', F'', hmarked, hhas⟩ := applyPlain_marked h.extends_.fits (resolve_ok hresolve).2 hk hlevel' hrun
  have hmarks : marksOfPlain (.mk id args) loc env s = marksOfArguments args loc 0 env s ++
      [.noted ⟨loc, resolved, argv, v, reached t, reached u⟩] := by
    rw [marksOfPlain, seen_ok hresolve, seen_ok hargs, noteOf, seen_ok hrun]
  refine ⟨W'', F'', ?_, hhas, hmarks⟩
  rw [hmarks]
  exact h.trans hmarked

-- The recursion is that of lowering: through the arguments of a block into the blocks among them.
mutual

theorem arguments_marked : ∀ (args : List Argument) {loc : Location} {i : Nat} {argv : List Operand} {W : World}
    {F : Facts} {B : Bindings} {s t : LowerState}, loc.path ≠ [] → Fits env W F B s →
    arguments args loc i env s = .ok argv t →
    ∃ W' F', Marked env (marksOfArguments args loc i env s) W F B s W' F' t ∧
      HasAll W'.kinds F'.written (argv.flatMap contents) ∧ ∀ m ∈ marksOfArguments args loc i env s, m.Quiet
  | [], _, _, _, W, F, _, _, _, _, h, hrun => by
    obtain ⟨rfl, rfl⟩ := pure_ok hrun
    exact ⟨W, F, .refl h, nofun, List.forall_mem_nil _⟩
  | a :: rest, loc, i, _, _, _, _, _, _, hloc, h, hrun => by
    obtain ⟨v, s₁, hv, hrest⟩ := bind_ok hrun
    obtain ⟨vs, s₂, hvs, hlast⟩ := bind_ok hrest
    obtain ⟨rfl, rfl⟩ := pure_ok hlast
    obtain ⟨W₁, F₁, hfirst, hhas, hquiet⟩ := argument_marked a hloc h hv
    obtain ⟨W₂, F₂, hmore, hhas', hquiet'⟩ := arguments_marked rest hloc hfirst.extends_.fits hvs
    rw [marksOfArguments, seen_ok hv]
    refine ⟨W₂, F₂, hfirst.trans hmore, fun y hy => ?_, fun m hm => ?_⟩
    · rcases List.mem_append.mp hy with hy | hy
      · exact hmore.extends_.hasAll hhas y hy
      · exact hhas' y hy
    · rcases List.mem_append.mp hm with hm | hm
      · exact hquiet m hm
      · exact hquiet' m hm

theorem argument_marked : ∀ (a : Argument) {loc : Location} {i : Nat} {v : Operand} {W : World} {F : Facts}
    {B : Bindings} {s t : LowerState}, loc.path ≠ [] → Fits env W F B s →
    Lower.argument a loc i env s = .ok v t →
    ∃ W' F', Marked env (marksOfArgument a loc i env s) W F B s W' F' t ∧
      HasAll W'.kinds F'.written (contents v) ∧ ∀ m ∈ marksOfArgument a loc i env s, m.Quiet
  | .text _, _, _, _, W, F, _, _, _, _, h, hrun => by
    obtain ⟨rfl, rfl⟩ := pure_ok hrun
    exact ⟨W, F, .refl h, nofun, List.forall_mem_nil _⟩
  | .constant _, _, _, _, W, F, _, _, _, _, h, hrun => by
    obtain ⟨rfl, rfl⟩ := pure_ok hrun
    exact ⟨W, F, .refl h, nofun, List.forall_mem_nil _⟩
  | .blockdef _, _, _, _, W, F, _, _, _, _, h, hrun => by
    obtain ⟨rfl, rfl⟩ := pure_ok hrun
    exact ⟨W, F, .refl h, nofun, List.forall_mem_nil _⟩
  | .color text, loc, _, _, _, _, _, _, _, _, h, hrun => by
    have hcolor : Straight (settingOf env) true [] (colorArgument text loc) contents :=
      colorArgument_straight text loc
    obtain ⟨W', F', hext, hhas⟩ := h.straight hcolor nofun hrun
    exact ⟨W', F', ⟨hext, trivial⟩, hhas, List.forall_mem_nil _⟩
  | .block b, loc, i, _, _, _, _, _, _, hloc, h, hrun => by
    exact nested_marked b (hasParent_child hloc i) h hrun

theorem nested_marked : ∀ (b : Block) {loc : Location} {v : Operand} {W : World} {F : Facts} {B : Bindings}
    {s t : LowerState}, loc.hasParent = true → Fits env W F B s → nested b loc env s = .ok v t →
    ∃ W' F', Marked env (marksOfPlain b loc env s) W F B s W' F' t ∧
      HasAll W'.kinds F'.written (contents v) ∧ ∀ m ∈ marksOfPlain b loc env s, m.Quiet
  | .mk id args, loc, _, _, _, _, _, _, hloc, h, hrun => by
    obtain ⟨resolved, s₁, hresolve, hrest⟩ := bind_ok hrun
    obtain ⟨rfl, -⟩ := resolve_ok hresolve
    cases hplain : resolved.isPlain with
    | false =>
      simp only [hplain] at hrest
      exact (fail_ok hrest).elim
    | true =>
      simp only [hplain, if_true] at hrest
      obtain ⟨argv, s₂, hargs, happly⟩ := bind_ok hrest
      obtain ⟨W₁, F₁, hmarked, hhas, hquiet⟩ := arguments_marked args (path_of_hasParent hloc) h hargs
      have hlevel : loc.hasParent = false → env.kind = .main →
          s₁.scopes.control.size = s₁.scopes.variableFrames.size := fun hno => by
        cases hloc.symm.trans hno
      obtain ⟨W₂, F₂, hmarked', hhas', hmarks⟩ := plain_marked hresolve hargs hmarked hhas hlevel happly
      refine ⟨W₂, F₂, hmarked', hhas', fun m hm => ?_⟩
      rw [hmarks] at hm
      rcases List.mem_append.mp hm with hm | hm
      · exact hquiet m hm
      · obtain rfl := List.mem_singleton.mp hm
        exact quiet_of_parent hloc happly

end

end

end Tracing

end Blockwork
