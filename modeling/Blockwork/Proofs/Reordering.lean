import Blockwork.Proofs.Abreast.Blocks
import Blockwork.Proofs.Tracing.Programs
import Mathlib.Data.List.Perm.Basic

/-! # The order of definitions
All that one function can leave to the next is a new text for a variable of the whole program. -/

namespace Blockwork

open Lower Compile Bindings

/-! ### Functions in another program -/

namespace Abreast

variable {P : Pairing}

def Pairing.at (P : Pairing) (chain : Nat) : Pairing :=
  { P with chain }

theorem finish_twins (P : Pairing) (hloc : P.Blames loc loc') : Twins P Any (finish loc) (finish loc') := by
  refine (closeRoots_twins hloc).bind fun _ _ hbody => (emitAll_twins hbody).bind fun _ _ _ => .ofState fun s t hst => ?_
  rw [show t.scopes.rootDepth = s.scopes.rootDepth from hst.roots]
  split
  · exact .fail hloc
  · refine (perform_twins _ fun _ => rfl).bind fun _ _ _ => .ofEnv ?_
    rw [P.kind]
    cases P.env.kind with
    | main => exact emit_twins fun _ => rfl
    | user =>
      exact (call_twins _ fun _ => rfl).bind fun q r hqr => emit_twins fun he => by rw [hqr he]; rfl

theorem Paired.run (h : Paired P (α := Unit) Any (.ok () s') r) : ∃ t', r = .ok () t' ∧ P.Beside s' t' := by
  cases h with
  | ok _ hst => exact ⟨_, rfl, hst⟩

section Exact

variable (hexact : P.exact = true)

include hexact

theorem finish_moves (loc loc' : Location) (hst : P.Beside s t) (h : finish loc P.env s = .ok () s') :
    ∃ t', finish loc' P.env' t = .ok () t' ∧ codeOf t' = (codeOf s').renumber P.number ∧
      globalsOf t' = globalsOf s' := by
  have hpaired : Paired P Any (finish loc P.env s) (finish loc' P.env' t) :=
    finish_twins P (fun he => Bool.noConfusion (hexact.symm.trans he)) s t hst
  rw [h] at hpaired
  obtain ⟨t', ht', hst'⟩ := hpaired.run
  refine ⟨t', ht', ?_, hst'.globals⟩
  rw [hst'.exact hexact]
  simp [codeOf, Pairing.state, FunctionCode.renumber, Instr.renumberAll_eq_map]

theorem chain_moves (hst : P.Beside s t) (h : chain index c P.env s = .ok () s') :
    ∃ t', chain j c P.env' t = .ok () t' ∧ (P.at j).Beside s' t' := by
  have hpaired : Paired (P.at j) Any (chain index c P.env s) (chain j c P.env' t) := by
    refine chain_paired (P := P.at j) (fun he => Bool.noConfusion (hexact.symm.trans he)) hst.roots hst.globals
      fun _ => ?_
    rw [hst.exact hexact]
    simp only [Pairing.state, Scopes.resetChain, Array.map_empty]
    rfl
  rw [h] at hpaired
  exact hpaired.run

theorem mainChains_moves (hsame : xs.map Prod.snd = ys.map Prod.snd) (hst : (P.at j).Beside s t)
    (h : mainChains P.env xs s = (none, s')) :
    ∃ j' t', mainChains P.env' ys t = (none, t') ∧ (P.at j').Beside s' t' := by
  induction xs generalizing ys s t j with
  | nil =>
    cases h
    obtain rfl := List.map_eq_nil_iff.mp hsame.symm
    exact ⟨j, t, rfl, hst⟩
  | cons x xs ih =>
    obtain ⟨index, c⟩ := x
    obtain ⟨⟨index', c'⟩, ys', rfl, rfl, hrest⟩ := List.map_eq_cons_iff.mp hsame.symm
    obtain ⟨s₁, hchain, hmore⟩ := Flow.mainChains_cons h
    obtain ⟨t₁, hchain', hst'⟩ := chain_moves (P := P.at j) (j := index') hexact hst hchain
    rw [mainChains, show chain index' c' P.env' t = .ok () t₁ from hchain']
    exact ih hrest.symm hst' hmore

end Exact

theorem startState_beside (P : Pairing) (hcontrol : s.scopes.control = #[])
    (hcode : s.code.map (Instr.renumber P.number) = s.code) : P.Beside s s := by
  obtain ⟨scopes, code, nextReg, globals, cells⟩ := s
  obtain ⟨control⟩ := scopes
  cases hcontrol
  refine ⟨by simp, rfl, rfl, rfl, rfl, rfl, rfl, rfl, rfl, by simp, fun _ => ?_⟩
  simp [Pairing.state, hcode]

theorem lowerMain_moves (P : Pairing) (hexact : P.exact = true) (hsame : xs.map Prod.snd = ys.map Prod.snd)
    (h : lowerMain P.env xs = (.ok code, g)) : lowerMain P.env' ys = (.ok (code.renumber P.number), g) := by
  obtain ⟨s, s', hchains, hfinish, rfl, rfl⟩ := Flow.lowerMain_ok h
  have hstart : (P.at 0).Beside (mainBegun {}) (mainBegun {}) :=
    startState_beside _ rfl (by simp [mainBegun, Instr.renumber])
  obtain ⟨j, t, hchains', hst⟩ := mainChains_moves hexact hsame hstart hchains
  obtain ⟨t', hfinish', hcode, hglobals⟩ : ∃ t', finish ⟨0, [0]⟩ P.env' t = .ok () t' ∧
      codeOf t' = (codeOf s').renumber P.number ∧ globalsOf t' = globalsOf s' :=
    finish_moves (P := P.at j) hexact ⟨0, [0]⟩ ⟨0, [0]⟩ hst hfinish
  simp only [lowerMain, beginMain_run, hchains', hfinish', hcode, hglobals]

theorem lowerDefinition_moves (P : Pairing) (hexact : P.exact = true)
    (henv : P.env = Flow.definingEnv env ⟨index, name⟩) (henv' : P.env' = Flow.definingEnv env' ⟨P.chain, name⟩)
    (hp : p.chains[index]? = some c) (hq : q.chains[P.chain]? = some c)
    (h : lowerDefinition env p ⟨index, name⟩ g = (.ok code, g')) :
    lowerDefinition env' q ⟨P.chain, name⟩ g = (.ok (code.renumber P.number), g') := by
  obtain ⟨s, s', hchain, hfinish, rfl, rfl⟩ := Flow.lowerDefinition_ok hp h
  have hparams : Flow.paramsOf env' ⟨P.chain, name⟩ = Flow.paramsOf env ⟨index, name⟩ := by
    have hfind := P.functions name
    rw [henv, henv'] at hfind
    simp only [Flow.paramsOf, show findFunction? env'.functions name = _ from hfind]
    cases hname : findFunction? (Flow.definingEnv env ⟨index, name⟩).functions name with
    | none => rw [show findFunction? env.functions name = none from hname]; rfl
    | some x => rw [show findFunction? env.functions name = some x from hname]; rfl
  rw [← henv] at hchain hfinish
  obtain ⟨t, hchain', hst⟩ := chain_moves (j := P.chain) hexact (startState_beside P rfl (by simp [startState])) hchain
  obtain ⟨t', hfinish', hcode, hglobals⟩ := finish_moves hexact ⟨index, [0]⟩ ⟨P.chain, [0]⟩ hst hfinish
  rw [henv', ← hparams] at hchain'
  rw [henv'] at hfinish'
  rw [← hcode, ← hglobals]
  exact Trimming.lowerDefinition_run hq hchain' hfinish'

end Abreast

/-! ### Texts that stay -/

/-- Whether a block assigns to a variable of the whole program that was declared with a text. -/
def Bindings.retexts (B : Bindings) (n : Note) : Bool :=
  match n.operation?, n.argv.getD 0 .nothing with
  | some .setVariable, .literal name =>
    match B.locals.find? (·.name == name), B.globals.find? (·.name == name) with
    | none, some b => b.stored?.isNone
    | _, _ => false
  | _, _ => false

/-- Whether no block among some marks does. -/
def Bindings.keepsTexts (B : Bindings) : List Mark → Bool
  | [] => true
  | .noted n :: ms => !B.retexts n && (B.afterNote n).keepsTexts ms
  | m :: ms => (B.after m).keepsTexts ms

/-- No chain that defines a block assigns to a variable of the whole program that was declared with a text. -/
def Program.KeepsTexts (p : Program) : Prop :=
  ∀ i < p.marks.2.length, (p.bindingsOf (some i)).keepsTexts (p.marksOf (some i)) = true

instance (p : Program) : Decidable p.KeepsTexts :=
  Nat.decidableBallLT _ _

example : ¬ Program.KeepsTexts
    ⟨[⟨[.mk "on_start" [], .mk "decl_var" [.text "n", .text "1"]]⟩,
      ⟨[.definition "f", .mk "set_var" [.text "n", .text "2"]]⟩], [⟨"f", []⟩]⟩ := by
  decide +kernel

namespace Reordering

open Tracing

variable {B : Bindings}

theorem afterNote_globals (h : B.TellsNote n) (hmain : B.main = false) (hkeeps : B.retexts n = false) :
    (B.afterNote n).globals = B.globals := by
  have htop : B.isTop = false := by rw [isTop, hmain, Bool.false_and]
  unfold afterNote
  split
  · exact (Bindings.locals_declare htop).2.1
  · exact (Bindings.locals_declare htop).2.1
  next name text hop harg htext =>
    obtain ⟨name', b, hname, hb, htakes⟩ := h.sets hop
    cases harg.symm.trans hname
    rw [htext] at htakes
    rw [Bindings.find?_eq] at hb
    cases hheld : b.held with
    | stored =>
      rw [hheld] at htakes
      obtain ⟨r, hr⟩ := htakes
      cases hr
    | text old =>
      cases hlocal : B.locals.find? (·.name == name) with
      | some =>
        rw [hlocal, Option.some_or] at hb
        cases hb
        refine (Bindings.assign_local (any_of_find? hlocal) (fun d hd => ?_) text).2.1
        cases hlocal.symm.trans hd
        exact ⟨old, hheld⟩
      | none =>
        rw [hlocal, Option.none_or] at hb
        simp only [retexts, hop, harg, hlocal, hb, Binding.stored?, hheld] at hkeeps
        cases hkeeps
  · rfl

theorem afterAll_keeps (h : B.Tells ms) (hmain : B.main = false) (hkeeps : B.keepsTexts ms = true) :
    (B.afterAll ms).globals = B.globals := by
  induction ms generalizing B with
  | nil => rfl
  | cons m ms ih =>
    cases m with
    | opened | closed => exact ih h.2 hmain hkeeps
    | noted n =>
      simp only [keepsTexts, Bool.and_eq_true, Bool.not_eq_true'] at hkeeps
      have hnests := (afterNote_nests (h.1 n rfl)).1
      exact (ih h.2 (hnests.main.trans hmain) hkeeps.2).trans (afterNote_globals (h.1 n rfl) hmain hkeeps.1)

theorem matches_unique (h : Matches place vs bs) (h' : Matches place ws bs) : vs = ws := by
  induction h generalizing ws with
  | nil =>
    cases h'
    rfl
  | @cons v vs b bs hname hagrees hrest ih =>
    cases h' with
    | @cons w ws _ _ hname' hagrees' hrest' =>
      obtain rfl := ih hrest'
      obtain ⟨vname, vty, vstorage⟩ := v
      obtain ⟨wname, wty, wstorage⟩ := w
      cases hheld : b.held with
      | text | stored => simp_all [Agrees]

theorem table_unique (h : Table B g) (h' : Table B' g') (hsame : B'.globals = B.globals) : g' = g := by
  have hstack := matches_unique (hsame ▸ h'.globals) h.globals
  have hdeclared : g'.declared = g.declared := Array.ext' (List.reverse_inj.mp hstack)
  have hcells : g'.cells = g.cells := by rw [h.count, h'.count, hsame]
  obtain ⟨declared', cells'⟩ := g'
  cases hdeclared
  cases hcells
  rfl

theorem lowerDefinitions_keeps : ∀ {definitions : List Definition} {B : Bindings} {g g' : Globals}
    {codes : List FunctionCode},
    (∀ d ∈ definitions, ∃ b rest j f, p.chains[d.chain]? = some ⟨b :: rest⟩ ∧ b.id = "define_block" ∧
      findFunction? env.functions d.blockdef = some (j, f)) → Table B g →
    (∀ k < (marksOfDefinitions env p definitions g).length,
      ((B.starts (marksOfDefinitions env p definitions g)).getD k { main := false }).keepsTexts
        ((marksOfDefinitions env p definitions g).getD k []) = true) →
    lowerDefinitions env p definitions g = (codes, [], g') →
    g' = g ∧ List.Forall₂ (fun d code => lowerDefinition env p d g = (.ok code, g)) definitions codes
  | [], B, g, g', codes, _, _, _, hrun => by
    cases hrun
    exact ⟨rfl, .nil⟩
  | d :: rest, B, g, g', codes, hheads, htable, hkeeps, hrun => by
    obtain ⟨code, g₁, codes', hone, hmore, rfl⟩ := Flow.lowerDefinitions_cons hrun
    obtain ⟨b, blocks, j, f, hchain, hid, hfind⟩ := hheads d List.mem_cons_self
    obtain ⟨⟨W, hdescribed⟩, htable', -⟩ := lowerDefinition_described htable hchain hid hfind hone
    rw [marksOfDefinitions, hone] at hkeeps
    have hglobals := afterAll_keeps hdescribed.tells rfl (hkeeps 0 (Nat.zero_lt_succ _))
    obtain rfl : g₁ = g := table_unique htable htable' hglobals
    obtain ⟨rfl, hall⟩ := lowerDefinitions_keeps (fun d hd => hheads d (List.mem_cons_of_mem _ hd)) htable'
      (fun k hk => hkeeps (k + 1) (Nat.succ_lt_succ hk)) hmore
    exact ⟨rfl, .cons hone hall⟩

theorem declareFrom_declares (h : List.Forall₂ (fun x f => Flow.Declares p x.2 f) chains new)
    (hnodup : ((known ++ new).map FunctionDecl.id).Nodup) :
    declareFrom p chains known = .ok (known ++ new, List.zipWith (fun x f => ⟨x.1, f.id⟩) chains new) := by
  induction h generalizing known with
  | nil => rw [declareFrom, List.append_nil]; rfl
  | @cons x f chains new hx _ ih =>
    obtain ⟨index, c⟩ := x
    obtain ⟨t, ht, hparams⟩ := hx.template
    have hnew : known.any (·.id == f.id) = false := by
      rw [List.map_append, List.nodup_append] at hnodup
      refine List.any_eq_false.mpr fun d hd heq => ?_
      exact hnodup.2.2 d.id (List.mem_map_of_mem hd) f.id List.mem_cons_self (eq_of_beq heq)
    have hblock : declareBlock p known index f.id = .ok f := by
      simp only [declareBlock, ht, hnew, hparams, Nat.not_lt.mpr hx.room, Bool.false_eq_true, if_false]
    have hrest := @ih (known ++ [f]) (by rwa [List.append_assoc])
    simp only [declareFrom, hx.named, hblock, hrest, bind, Except.bind, pure, Except.pure, List.zipWith_cons_cons,
      List.append_assoc, List.singleton_append]

/-- Where a function stands when functions are in another order. -/
def renumbering (fs fs' : List FunctionDecl) (i : Nat) : Nat :=
  match fs[i]? with
  | some d => ((findFunction? fs' d.id).map Prod.fst).getD i
  | none => i

section Numbers

variable {fs' : List FunctionDecl} (hperm : fs'.Perm fs) (hnodup : (fs.map FunctionDecl.id).Nodup)

include hperm hnodup

theorem findFunction?_renumbering (h : fs[i]? = some d) :
    findFunction? fs' d.id = some (renumbering fs fs' i, d) := by
  obtain ⟨j, hj⟩ := List.getElem?_of_mem (hperm.mem_iff.mpr (List.mem_of_getElem? h))
  have hfind := Flow.findFunction?_of_nodup ((hperm.map _).nodup_iff.mpr hnodup) hj
  simp only [renumbering, h, hfind, Option.map_some, Option.getD_some]

theorem findFunction?_perm (id : String) :
    findFunction? fs' id = (findFunction? fs id).map fun x => (renumbering fs fs' x.1, x.2) := by
  cases h : findFunction? fs id with
  | some =>
    obtain ⟨hget, rfl⟩ := Flow.findFunction?_some h
    exact findFunction?_renumbering hperm hnodup hget
  | none =>
    cases h' : findFunction? fs' id with
    | none => rfl
    | some =>
      obtain ⟨hget, rfl⟩ := Flow.findFunction?_some h'
      obtain ⟨i, hi⟩ := List.getElem?_of_mem (hperm.mem_iff.mp (List.mem_of_getElem? hget))
      rw [Flow.findFunction?_of_nodup hnodup hi] at h
      cases h

end Numbers

end Reordering

/-! ### Programs -/

def Chain.isHeaded (c : Chain) (id : String) : Bool :=
  match c.head? with
  | some b => b.id == id
  | none => false

/-- The same chains in another order. Those that start with the program keep theirs. -/
structure Program.Reorders (p q : Program) : Prop where
  chains : q.chains.Perm p.chains
  starts : q.chains.filter (·.isHeaded "on_start") = p.chains.filter (·.isHeaded "on_start")
  blockdefs : q.blockdefs = p.blockdefs

namespace Reordering

open Abreast

variable {p : Program}

theorem chainsHeaded_chains (p : Program) (id : String) :
    (chainsHeaded p id).map Prod.snd = p.chains.filter (·.isHeaded id) := by
  have hfst : p.chains = p.chains.zipIdx.map Prod.fst := (List.zipIdx_map_fst _ _).symm
  conv_rhs => rw [hfst]
  rw [chainsHeaded, List.filter_map, List.filter_map, List.map_map]
  rfl

/-- A chain defines a block, and its function is lowered with the variables of the program as they are. -/
structure Lowered (p : Program) (env : LowerEnv) (g : Globals) (c : Chain) (x : FunctionDecl × FunctionCode) :
    Prop where
  declares : Flow.Declares p c x.1
  lowers : ∃ index, p.chains[index]? = some c ∧ lowerDefinition env p ⟨index, x.1.id⟩ g = (.ok x.2, g)

theorem lowered_zip (hchains : ∀ x ∈ chains, p.chains[x.1]? = some x.2)
    (hdeclares : List.Forall₂ (fun x f => Flow.Declares p x.2 f) chains fs)
    (hlowers : List.Forall₂ (fun d code => lowerDefinition env p d g = (.ok code, g))
      (List.zipWith (fun x f => ⟨x.1, f.id⟩) chains fs) codes) :
    List.Forall₂ (Lowered p env g) (chains.map Prod.snd) (fs.zip codes) := by
  induction hdeclares generalizing codes with
  | nil =>
    exact .nil
  | cons hx _ ih =>
    cases hlowers with
    | cons hone hmore =>
      exact .cons ⟨hx, _, hchains _ List.mem_cons_self, hone⟩
        (ih (fun y hy => hchains y (List.mem_cons_of_mem _ hy)) hmore)

theorem lowered_moves (hq : p.Reorders q)
    (hpairing : ∀ name index, ∃ P : Pairing, P.exact = true ∧ P.chain = index ∧ P.number = number ∧
      P.env = Flow.definingEnv env ⟨index, name⟩ ∧ P.env' = Flow.definingEnv env' ⟨index, name⟩)
    (hchains : ∀ x ∈ chains, q.chains[x.1]? = some x.2) (h : List.Forall₂ (Lowered p env g) (chains.map Prod.snd) xs) :
    List.Forall₂ (fun x f => Flow.Declares q x.2 f) chains (xs.map Prod.fst) ∧
      lowerDefinitions env' q (List.zipWith (fun x f => ⟨x.1, f.id⟩) chains (xs.map Prod.fst)) g =
        (xs.map fun x => x.2.renumber number, [], g) := by
  induction chains generalizing xs with
  | nil =>
    cases h
    exact ⟨.nil, rfl⟩
  | cons y chains ih =>
    cases h with
    | @cons _ x _ xs hone hmore =>
      obtain ⟨hdeclares, hrest⟩ := ih (fun z hz => hchains z (List.mem_cons_of_mem _ hz)) hmore
      obtain ⟨index, hp, hlowers⟩ := hone.lowers
      obtain ⟨P, hexact, hchain, rfl, henv, henv'⟩ := hpairing x.1.id y.1
      have hfind : q.findBlockdef? x.1.id = p.findBlockdef? x.1.id := by
        rw [Program.findBlockdef?, hq.blockdefs, Program.findBlockdef?]
      have henv : P.env = Flow.definingEnv env ⟨index, x.1.id⟩ := henv
      have hlowers' := lowerDefinition_moves P hexact henv (hchain ▸ henv') hp
        (hchain ▸ hchains y List.mem_cons_self) hlowers
      rw [hchain] at hlowers'
      refine ⟨.cons ⟨hone.declares.named, hfind ▸ hone.declares.template, hone.declares.room⟩ hdeclares, ?_⟩
      simp only [List.map_cons, List.zipWith_cons_cons, lowerDefinitions, hlowers', hrest]

theorem renumbers_functions {xs : List (FunctionDecl × FunctionCode)}
    (hlength : fs.length = codes.length) (hperm : xs.Perm (fs.zip codes)) (hnodup : (fs.map FunctionDecl.id).Nodup)
    (hnumber : number = renumbering fs (xs.map Prod.fst)) (i : Nat) :
    (xs.map fun x => x.2.renumber number).toArray.getD (number i) default =
      (codes.toArray.getD i default).renumber number := by
  have hfst : (xs.map Prod.fst).Perm fs := by
    rw [← List.map_fst_zip (Nat.le_of_eq hlength)]
    exact hperm.map _
  simp only [Array.getD_eq_getD_getElem?, List.getElem?_toArray, List.getElem?_map]
  cases hi : fs[i]? with
  | none =>
    have hlt := List.getElem?_eq_none_iff.mp hi
    have hsize : xs.length = fs.length := by rw [← hfst.length_eq, List.length_map]
    have hsame : number i = i := by rw [hnumber, renumbering, hi]
    rw [hsame, List.getElem?_eq_none (by omega), List.getElem?_eq_none (by omega)]
    rfl
  | some f =>
    have hlt := (List.getElem?_eq_some_iff.mp hi).1
    have hcode := List.getElem?_eq_getElem (l := codes) (Nat.lt_of_lt_of_eq hlt hlength)
    have hmem : (f, codes[i]) ∈ xs :=
      hperm.mem_iff.mpr (List.mem_of_getElem? (List.getElem?_zip_eq_some.mpr ⟨hi, hcode⟩))
    obtain ⟨j, hj⟩ := List.getElem?_of_mem hmem
    have hfound := Flow.findFunction?_of_nodup ((hfst.map _).nodup_iff.mpr hnodup)
      (show (xs.map Prod.fst)[j]? = some f by rw [List.getElem?_map, hj]; rfl)
    obtain rfl : number i = j := by
      rw [findFunction?_renumbering hfst hnodup hi, ← hnumber] at hfound
      cases hfound
      rfl
    rw [hj, hcode]
    rfl

theorem compile_reorders (hcode : p.compile.result = .ok code) (hkeeps : p.KeepsTexts) (hq : p.Reorders q) :
    ∃ code' number, q.compile.result = .ok code' ∧ code.Renumbers number code' := by
  obtain ⟨functions, definitions, main, g, codes, g', hdecl, hmain, hlater, rfl⟩ := Flow.compile_ok hcode
  have hnil : (([] : List FunctionDecl).map FunctionDecl.id).Nodup := List.nodup_nil
  obtain ⟨_, rfl, hnodup, rfl, hdeclares⟩ :=
    Flow.declareFrom_ok (Tracing.definitions_named hdecl hlater) hnil hdecl
  obtain ⟨-, hheads⟩ := Flow.declare_named (Tracing.definitions_named hdecl hlater) hdecl
  have hmarks := Tracing.marks_eq hdecl hmain
  -- In the first program all functions are lowered with the variables that the main function leaves.
  obtain ⟨rfl, hlowers⟩ := lowerDefinitions_keeps (fun d hd => by
    obtain ⟨k, hk⟩ := List.getElem?_of_mem hd
    obtain ⟨f, b, rest, -, hname, hfind, hchain, hid⟩ := hheads k d hk
    exact ⟨b, rest, k, f, hchain, hid, hname ▸ hfind⟩) (Tracing.lowerMain_described rfl hmain).2 (fun k hk => by
      have hkept := hkeeps k (by rw [hmarks]; exact hk)
      rw [Program.bindingsOf, Program.marksOf, hmarks] at hkept
      exact hkept) hlater
  have hchains : ∀ r : Program, ∀ x ∈ chainsHeaded r "define_block", r.chains[x.1]? = some x.2 :=
    fun r x hx => (Flow.mem_chainsHeaded hx).1
  have hperm : ((chainsHeaded q "define_block").map Prod.snd).Perm ((chainsHeaded p "define_block").map Prod.snd) := by
    rw [chainsHeaded_chains, chainsHeaded_chains]
    exact hq.chains.filter _
  obtain ⟨xs, hxs, hzip⟩ := List.perm_comp_forall₂ hperm (lowered_zip (hchains p) hdeclares hlowers)
  have hlength : functions.length = codes.length := by
    have hlen := hlowers.length_eq
    rw [List.length_zipWith, hdeclares.length_eq, Nat.min_self] at hlen
    exact hlen
  have hfst : (xs.map Prod.fst).Perm functions := by
    rw [← List.map_fst_zip (Nat.le_of_eq hlength)]
    exact hzip.map _
  let pairing (kind : FunctionKind) (chain : Nat) : Pairing :=
    { program := p
      chain
      env := { Flow.mainEnv p functions false with kind }
      env' := { Flow.mainEnv q (xs.map Prod.fst) false with kind }
      number := renumbering functions (xs.map Prod.fst)
      exact := true
      kind := rfl
      paramOwners := by simp only [Flow.mainEnv, paramOwners, hq.blockdefs]
      keepScopes := rfl
      functions := findFunction?_perm hfst hnodup }
  obtain ⟨hdeclares', hlater'⟩ := lowered_moves hq
    (fun name index => ⟨pairing (.user name) index, rfl, rfl, rfl, rfl, rfl⟩) (hchains q) hxs
  have hnodup' : ((([] : List FunctionDecl) ++ xs.map Prod.fst).map FunctionDecl.id).Nodup :=
    (hfst.map _).nodup_iff.mpr hnodup
  have hdecl' := declareFrom_declares hdeclares' hnodup'
  have hstarts : (chainsHeaded p "on_start").map Prod.snd = (chainsHeaded q "on_start").map Prod.snd := by
    rw [chainsHeaded_chains, chainsHeaded_chains, hq.starts]
  have hmain' := lowerMain_moves (pairing .main 0) rfl hstarts hmain
  exact ⟨_, _, Trimming.compile_run hdecl' hmain' hlater', rfl, renumbers_functions hlength hzip hnodup rfl, rfl⟩

end Reordering

/-- The order of definitions does not matter. -/
theorem Program.definition_order_irrelevant {p : Program} (hcode : p.compile.result = .ok code)
    (hkeeps : p.KeepsTexts) (hq : p.Reorders q) :
    ∃ code', q.compile.result = .ok code' ∧ ∀ s : Session,
      (∀ fuel, code'.run s fuel = code.run s fuel) ∧
      ∀ h n, (Machine.advance code' h (Machine.load code' s) n).outcome =
        (Machine.advance code h (Machine.load code s) n).outcome := by
  obtain ⟨code', number, hcode', hnumbers⟩ := Reordering.compile_reorders hcode hkeeps hq
  refine ⟨code', hcode', fun s => ⟨fun fuel => ?_, fun h n => ?_⟩⟩
  · rw [ProgramCode.run, Machine.load_renumber hnumbers, Machine.run_renumber hnumbers, ProgramCode.run]
  · rw [Machine.load_renumber hnumbers, Machine.advance_renumber hnumbers, Progress.outcome_renumber]

/-- Two blocks that call each other. -/
def pingPong : Program :=
  ⟨[⟨[.mk "on_start" [], .mk "decl_var" [.text "n", .text "1"], .mk "ping" []]⟩,
    ⟨[.definition "ping", .mk "println" [.block (.mk "get_var" [.text "n"])], .mk "pong" []]⟩,
    ⟨[.definition "pong", .mk "println" [.block (.mk "get_var" [.text "n"])],
      .mk "decl_var" [.text "n", .text "2"], .mk "set_var" [.text "n", .text "3"],
      .mk "if" [.block (.mk "false" [])], .mk "ping" [], .mk "end" []]⟩],
    [⟨"ping", []⟩, ⟨"pong", []⟩]⟩

def pongPing : Program :=
  { pingPong with chains := pingPong.chains.reverse }

theorem Program.definition_order_irrelevant_pingPong :
    ∃ code code', pingPong.compile.result = .ok code ∧ pongPing.compile.result = .ok code' ∧
      ∀ s fuel, code'.run s fuel = code.run s fuel := by
  obtain ⟨code, hcode, -⟩ := pingPong.exists_code false (fun _ => true) (by decide +kernel)
  have hkeeps : pingPong.KeepsTexts := by decide +kernel
  have hq : pingPong.Reorders pongPing := ⟨List.reverse_perm _, by decide +kernel, rfl⟩
  obtain ⟨code', hcode', hruns⟩ := Program.definition_order_irrelevant hcode hkeeps hq
  exact ⟨code, code', hcode, hcode', fun s fuel => (hruns s).1 fuel⟩

end Blockwork
