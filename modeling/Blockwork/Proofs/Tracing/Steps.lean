import Blockwork.Proofs.Tracing.Tables

/-! # Steps of lowering
`Fits` relates a state of lowering to what is said of the code so far and to what names stand for, and
`Extends` says what a step adds. -/

namespace Blockwork.Tracing

open Lower Typing Instr RootScope
open Flow hiding known
open Scopes (Shaped)

/-! ### States -/

structure SameTables (s t : LowerState) : Prop where
  locals : t.scopes.locals = s.scopes.locals
  frames : t.scopes.variableFrames = s.scopes.variableFrames
  slots : t.scopes.slots = s.scopes.slots
  slotsUsed : t.scopes.slotsUsed = s.scopes.slotsUsed
  globals : t.globals = s.globals
  cells : t.cells = s.cells

structure Untouched (s t : LowerState) : Prop extends SameTables s t where
  shaped : Shaped s.scopes t.scopes

theorem stack_starts {s t : Scopes Body} (h : Shaped s t) :
    (stack t.rootScopes).map start = (stack s.rootScopes).map start := by
  simp only [stack, List.map_reverse, ← Array.toList_map, h.starts]

theorem untouched_onto (o : Output) (s : LowerState) : Untouched s (o.onto s) := by
  obtain ⟨code, next, required, dirty⟩ := o
  cases required with
  | false => exact ⟨⟨rfl, rfl, rfl, rfl, rfl, rfl⟩, ⟨rfl, rfl, rfl, rfl, rfl⟩⟩
  | true => exact ⟨⟨rfl, rfl, rfl, rfl, rfl, rfl⟩, ⟨rfl, rfl, rfl, rfl, (Shaped.requireRootScope s.scopes).starts⟩⟩

theorem reached_of_code (h : t.code.toList = s.code.toList ++ is) : reached t = reached s + widthIn is := by
  rw [reached, h, widthIn_append]
  rfl

def Params (env : LowerEnv) (T : List Content) (D : List Reg) : Prop :=
  ∀ owner j d, env.kind = .user owner → findFunction? env.functions owner = some (j, d) →
    ∀ i < d.params.length, Has T D i (.value .any)

theorem Params.mono (h : Params env T D) (hT : T <+: T') (hD : D ⊆ D') : Params env T' D' :=
  fun owner j d hkind hd i hi => (h owner j d hkind hd i hi).mono hT hD

/-- The tables of variables are described by what names stand for. -/
structure Fitted (W : World) (F : Facts) (B : Bindings) (ls : Array Variable) (fs : Array VariableFrame)
    (places : Array Nat) (n : Nat) (gs : Array Variable) (k : Nat) : Prop where
  main : W.main = B.main
  locals : Matches .slot (stack ls) B.locals
  facts : F.locals = storedIn B.locals
  frames : stack fs = framesOf B.blocks B.own
  used : n = F.locals.length
  slots : ∀ i j : Nat, places[i]? = some j → j = i
  room : n ≤ places.size
  size : W.slots = places.size
  globals : Matches .global (stack gs) B.globals
  cells : W.cells = storedIn B.globals
  count : k = W.cells.length
  declared : W.main = true → F.cells = k
  own : B.main = true → B.own = []
  nodup : F.locals.Nodup
  distinct : W.cells.Nodup
  isGlobal : ∀ x ∈ W.cells, x.isGlobal = true

/-- A state of lowering is described by what is said of the code so far, what is known at its end, and what
names stand for. -/
structure Fits (env : LowerEnv) (W : World) (F : Facts) (B : Bindings) (s : LowerState) : Prop
    extends Fitted W F B s.scopes.locals s.scopes.variableFrames s.scopes.slots s.scopes.slotsUsed s.globals s.cells where
  ctx : W.ctx = settingOf env
  kind : B.main = (env.kind == .main)
  next : s.nextReg = W.kinds.length
  params : Params env W.kinds F.written
  accesses : Numbered W.accesses (reached s)
  values : ∀ e ∈ W.values, e.1 ≤ reached s ∧ W.kinds[e.2.1]? = some e.2.2
  due : Due W (reached s) F
  young : ∀ x ∈ F.locals, x.start < reached s ∧ x.isGlobal = false
  youngCells : W.main = true → ∀ x ∈ W.cells, x.start < reached s

theorem SameTables.fitted (hsame : SameTables s t) (h : Fitted W F B s.scopes.locals s.scopes.variableFrames s.scopes.slots
      s.scopes.slotsUsed s.globals s.cells) : Fitted W F B t.scopes.locals t.scopes.variableFrames t.scopes.slots
      t.scopes.slotsUsed t.globals t.cells := by
  rwa [hsame.locals, hsame.frames, hsame.slots, hsame.slotsUsed, hsame.globals, hsame.cells]

structure Extends (env : LowerEnv) (as : List (Nat × Access)) (vs : List (Nat × Reg × Content)) (W : World)
    (F : Facts) (s : LowerState) (W' : World) (F' : Facts) (B' : Bindings) (t : LowerState) : Prop where
  fits : Fits env W' F' B' t
  grows : W.Grows (reached s) W'
  accesses : W'.accesses = W.accesses ++ as
  values : W'.values = W.values ++ vs
  code : ∃ is, t.code.toList = s.code.toList ++ is ∧ Scoped W' (reached s) F is F' ∧ Ascends s.nextReg is t.nextReg
  shaped : Shaped s.scopes t.scopes

namespace Extends

variable {env : LowerEnv} {as : List (Nat × Access)} {vs : List (Nat × Reg × Content)} {W W' : World} {F F' : Facts}
  {B B' : Bindings} {s t : LowerState}

theorem renamed (h : Fits env W F B t) (hcode : t.code = s.code) (hnext : t.nextReg = s.nextReg)
    (hs : Shaped s.scopes t.scopes) : Extends env [] [] W F s W F B t :=
  ⟨h, .refl _ W, (List.append_nil _).symm, (List.append_nil _).symm,
    ⟨[], by rw [hcode, List.append_nil], .nil, hnext ▸ .refl _⟩, hs⟩

theorem refl (h : Fits env W F B s) : Extends env [] [] W F s W F B s :=
  renamed h rfl rfl (.refl s.scopes)

theorem reached_le (h : Extends env as vs W F s W' F' B' t) : reached s ≤ reached t := by
  obtain ⟨is, his, -⟩ := h.code
  rw [reached_of_code his]
  exact Nat.le_add_right _ _

theorem trans (h : Extends env as vs W F s W' F' B' t) (h' : Extends env as' vs' W' F' t W'' F'' B'' u) :
    Extends env (as ++ as') (vs ++ vs') W F s W'' F'' B'' u := by
  obtain ⟨is, his, hscoped, hascends⟩ := h.code
  obtain ⟨js, hjs, hscoped', hascends'⟩ := h'.code
  have hreached := reached_of_code his
  refine ⟨h'.fits, h.grows.trans h'.grows h.reached_le, ?_, ?_, ⟨is ++ js, ?_, ?_, hascends.append hascends'⟩,
    h.shaped.trans h'.shaped⟩
  · rw [h'.accesses, h.accesses, List.append_assoc]
  · rw [h'.values, h.values, List.append_assoc]
  · rw [hjs, his, List.append_assoc]
  · refine (h'.grows.ofCode hscoped (Nat.le_of_eq hreached.symm)).append ?_
    rw [← hreached]
    exact hscoped'

theorem written (h : Extends env as vs W F s W' F' B' t) : F.written ⊆ F'.written := by
  obtain ⟨is, -, hscoped, -⟩ := h.code
  exact hscoped.keeps.1

theorem hasAll (h : Extends env as vs W F s W' F' B' t) (hk : HasAll W.kinds F.written known) :
    HasAll W'.kinds F'.written known :=
  hk.mono h.grows.kinds h.written

end Extends

def World.touching (W : World) (kinds : List Content) (cells : List Stored) (slots k : Nat) (a : Access) : World :=
  { W with kinds, accesses := W.accesses ++ [(k, a)], cells, slots }

theorem grows_touching {W : World} (hkinds : W.kinds <+: kinds) (hcells : W.cells <+: cells)
    (hslots : W.slots ≤ slots) : W.Grows k (W.touching kinds cells slots k a) := by
  refine ⟨rfl, hkinds, ⟨_, rfl, fun e he => ?_⟩, ⟨[], (List.append_nil _).symm, nofun⟩, hcells, hslots⟩
  obtain rfl := List.mem_singleton.mp he
  exact Nat.le_refl _

namespace Fits

variable {env : LowerEnv} {W W' : World} {F F' : Facts} {B B' : Bindings} {s t : LowerState}

section Touching

variable {kinds : List Content} {cells : List Stored} (h : Fits env W F B s) (hkinds : W.kinds <+: kinds)
  (hnext : t.nextReg = kinds.length) (hmain : B'.main = B.main)
  (hfitted : Fitted (W.touching kinds cells slots (reached s) a) F' B' t.scopes.locals t.scopes.variableFrames
    t.scopes.slots t.scopes.slotsUsed t.globals t.cells)
  (hyoung : ∀ x ∈ F'.locals, x ∈ F.locals ∨ x.start = reached s ∧ x.isGlobal = false)
  (hyoungCells : ∀ x ∈ cells, x ∈ W.cells ∨ x.start = reached s)

include h hkinds hnext hmain hfitted hyoung hyoungCells

theorem touching (hreached : reached s < reached t) (hparams : Params env kinds F'.written) :
    Fits env (W.touching kinds cells slots (reached s) a) F' B' t where
  toFitted := hfitted
  ctx := h.ctx
  kind := hmain.trans h.kind
  next := hnext
  params := hparams
  accesses := h.accesses.snoc hreached
  values := fun e he => ⟨Nat.le_trans (h.values e he).1 (Nat.le_of_lt hreached), getElem?_mono hkinds (h.values e he).2⟩
  due := fun e he hek => absurd hek (Nat.ne_of_lt (Nat.lt_of_le_of_lt (h.values e he).1 hreached))
  young := fun x hx => (hyoung x hx).elim (fun hx => ⟨Nat.lt_trans (h.young x hx).1 hreached, (h.young x hx).2⟩)
    fun hx => ⟨hx.1 ▸ hreached, hx.2⟩
  youngCells := fun hm x hx => (hyoungCells x hx).elim (fun hx => Nat.lt_trans (h.youngCells hm x hx) hreached)
    (· ▸ hreached)

theorem leaf (hcells : W.cells <+: cells) (hslots : W.slots ≤ slots) (hcode : t.code.toList = s.code.toList ++ [i])
    (hleads : Leads (W.touching kinds cells slots (reached s) a) (reached s) F i F')
    (hascends : Ascends s.nextReg [i] t.nextReg) (hshaped : Shaped s.scopes t.scopes) :
    Extends env [(reached s, a)] [] W F s (W.touching kinds cells slots (reached s) a) F' B' t := by
  have hreached : reached s < reached t := by
    rw [reached_of_code hcode, widthIn_singleton, width_of_isLeaf hleads.isLeaf]
    exact Nat.lt_succ_self _
  exact ⟨h.touching hkinds hnext hmain hfitted hyoung hyoungCells hreached (h.params.mono hkinds hleads.keeps.1),
    grows_touching hkinds hcells hslots, rfl, (List.append_nil _).symm,
    ⟨[i], hcode, .leaf h.due hleads .nil, hascends⟩, hshaped⟩

end Touching

theorem due_later (h : Fits env W F B s) (hvalues : W'.values = W.values) (hF : F.written ⊆ F'.written)
    (hk : reached s ≤ k) : Due W' k F' := by
  intro e he hek
  rw [hvalues] at he
  have hle := (h.values e he).1
  exact hF (h.due e he (by omega))

theorem line (h : Fits env W F B s) (hsame : Untouched s t) (hcode : t.code.toList = s.code.toList ++ is)
    (hnext : t.nextReg = (W.kinds ++ new).length) (hline : Line W.ctx (W.kinds ++ new) F.written is D)
    (hascends : Ascends s.nextReg is t.nextReg) :
    Extends env [] [] W F s { W with kinds := W.kinds ++ new } { F with written := D } B t := by
  have hreached := reached_of_code hcode
  have hle : reached s ≤ reached t := by omega
  have hgrown : W.kinds <+: W.kinds ++ new := List.prefix_append _ _
  refine ⟨?_, ?_, (List.append_nil _).symm, (List.append_nil _).symm, ⟨is, hcode, ?_, hascends⟩, hsame.shaped⟩
  · exact
      { h with
        next := hnext
        params := h.params.mono hgrown hline.subset
        accesses := h.accesses.mono hle
        values := fun e he => ⟨Nat.le_trans (h.values e he).1 hle, getElem?_mono hgrown (h.values e he).2⟩
        due := h.due_later rfl hline.subset hle
        toFitted := hsame.fitted { h.toFitted with }
        young := fun x hx => ⟨Nat.lt_of_lt_of_le (h.young x hx).1 hle, (h.young x hx).2⟩
        youngCells := fun hm x hx => Nat.lt_of_lt_of_le (h.youngCells hm x hx) hle }
  · exact ⟨rfl, hgrown, ⟨[], (List.append_nil _).symm, nofun⟩, ⟨[], (List.append_nil _).symm, nofun⟩,
      List.prefix_refl _, Nat.le_refl _⟩
  · exact .of_line (W := { W with kinds := W.kinds ++ new }) hline h.due rfl h.accesses.below
      fun e he => (h.values e he).1

theorem output (h : Fits env W F B s) (ho : Adds (settingOf env) loud s.nextReg known gives o)
    (hk : HasAll W.kinds F.written known) :
    ∃ W' F', Extends env [] [] W F s W' F' B (o.onto s) ∧ HasAll W'.kinds F'.written gives := by
  obtain ⟨new, D, hlen, hline, hgives⟩ := ho.typed W.kinds F.written h.next.symm hk
  refine ⟨_, _, h.line (untouched_onto o s) (o.code_onto s) hlen.symm ?_ ho.ascends, hgives⟩
  rw [h.ctx]
  exact hline

theorem straight {α : Type} {x : Lower α} {gives : α → List (Reg × Content)} {a : α} (h : Fits env W F B s)
    (hx : Straight (settingOf env) loud known x gives) (hk : HasAll W.kinds F.written known)
    (hrun : x env s = .ok a t) :
    ∃ W' F', Extends env [] [] W F s W' F' B t ∧ HasAll W'.kinds F'.written (gives a) := by
  obtain ⟨o, rfl, -, hadds⟩ := hx env s a t rfl hrun
  exact h.output hadds hk

theorem note (h : Fits env W F B s) (hk : HasAll W.kinds F.written known) :
    Extends env [] (known.map fun x => (reached s, x)) W F s
      { W with values := W.values ++ known.map fun x => (reached s, x) } F B s := by
  have hmem : ∀ e ∈ known.map fun x => (reached s, x), e.1 = reached s ∧ e.2 ∈ known := by
    intro e he
    obtain ⟨x, hx, rfl⟩ := List.mem_map.mp he
    exact ⟨rfl, hx⟩
  refine ⟨{ h with values := fun e he => ?_, due := fun e he hek => ?_ }, ?_, (List.append_nil _).symm, rfl,
    ⟨[], (List.append_nil _).symm, .nil, .refl _⟩, .refl s.scopes⟩
  · rcases List.mem_append.mp he with he | he
    · exact h.values e he
    · obtain ⟨hat, hin⟩ := hmem e he
      exact ⟨Nat.le_of_eq hat, (hk e.2 hin).1⟩
  · rcases List.mem_append.mp he with he | he
    · exact h.due e he hek
    · exact (hk e.2 (hmem e he).2).2
  · exact ⟨rfl, List.prefix_refl _, ⟨[], (List.append_nil _).symm, nofun⟩,
      ⟨_, rfl, fun e he => Nat.le_of_eq (hmem e he).1.symm⟩, List.prefix_refl _, Nat.le_refl _⟩

end Fits

end Blockwork.Tracing
