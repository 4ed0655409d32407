import Blockwork.Proofs.Tracing.Steps

/-! # Blocks on variables

Reading, assigning and declaring a variable touch the place where the variable lives that the name stands
for, and change what names stand for as their marks say. -/

namespace Blockwork.Tracing

open List (append_nil prefix_refl mem_singleton mem_cons_self)

open Lower Typing Instr Bindings
open Flow
open Trimming

namespace Bindings

variable {B : Bindings}

theorem locals_declare (h : B.isTop = false) :
    (B.declare b).locals = b :: B.locals ∧ (B.declare b).globals = B.globals ∧
      framesOf (B.declare b).blocks (B.declare b).own = framesOf B.blocks B.own ∧
      outerLocals (B.declare b).blocks (B.declare b).own = outerLocals B.blocks B.own ∧
      (B.declare b).main = B.main ∧ (B.main = true → (B.declare b).own = B.own) := by
  obtain ⟨main, blocks, own, globals⟩ := B
  cases blocks with
  | cons inner outer => exact ⟨rfl, rfl, rfl, rfl, rfl, fun _ => rfl⟩
  | nil =>
    cases main with
    | true => cases h
    | false => exact ⟨rfl, rfl, rfl, rfl, rfl, nofun⟩

theorem globals_declare (h : B.isTop = true) : B.declare b = { B with globals := b :: B.globals } := by
  obtain ⟨main, blocks, own, globals⟩ := B
  cases blocks with
  | cons inner outer => cases main <;> cases h
  | nil =>
    cases main with
    | true => rfl
    | false => cases h

theorem find?_eq (B : Bindings) (name : String) :
    B.find? name = (B.locals.find? (·.name == name)).or (B.globals.find? (·.name == name)) := by
  rw [find?, List.find?_append]

theorem assign_local (h : B.locals.any (·.name == name) = true) (htext : Names.IsText name B.locals) (text : String) :
    (B.assign name text).locals = retext name text B.locals ∧ (B.assign name text).globals = B.globals ∧
      (B.assign name text).blocks.map shape = B.blocks.map shape ∧
      shape (B.assign name text).own = shape B.own ∧ (B.assign name text).main = B.main := by
  rw [locals] at h htext
  unfold assign
  cases hblocks : B.blocks.flatten.any (·.name == name) with
  | true =>
    refine ⟨?_, rfl, Names.shape_retextIn htext.left, rfl, rfl⟩
    show (retextIn name text B.blocks).flatten ++ B.own = retext name text (B.blocks.flatten ++ B.own)
    rw [Names.flatten_retextIn, Names.retext_append, if_pos hblocks]
  | false =>
    have hown : B.own.any (·.name == name) = true := by
      rw [List.any_append, hblocks] at h
      exact h
    rw [if_neg Bool.false_ne_true, if_pos hown]
    refine ⟨?_, rfl, rfl, Names.shape_retext (htext.right hblocks), rfl⟩
    show B.blocks.flatten ++ retext name text B.own = retext name text (B.blocks.flatten ++ B.own)
    rw [Names.retext_append, if_neg (by rw [hblocks]; exact Bool.false_ne_true)]

theorem assign_global (h : B.locals.any (·.name == name) = false) :
    B.assign name text = { B with globals := retext name text B.globals } := by
  rw [locals, List.any_append, Bool.or_eq_false_iff] at h
  unfold assign
  rw [if_neg (by rw [h.1]; exact Bool.false_ne_true), if_neg (by rw [h.2]; exact Bool.false_ne_true)]

end Bindings

inductive Means (W : World) (F : Facts) (v : Variable) : Held → Prop where
  | text : v.ty = .literal → v.storage = .constant t → Means W F v (.text t)
  | slot : v.ty = .value x.ty → v.storage = .slot i → F.locals[i]? = some x → Means W F v (.stored x)
  | cell : v.ty = .value x.ty → v.storage = .global i → W.cells[i]? = some x →
      (W.main = true → i < F.cells) → Means W F v (.stored x)

section

variable {name : String}

inductive Found (B : Bindings) (name : String) (b : Binding) : Prop where
  | inner : B.locals.find? (·.name == name) = some b → Found B name b
  | outer : B.locals.find? (·.name == name) = none → B.globals.find? (·.name == name) = some b → Found B name b

theorem Found.find? (h : Found B name b) : B.find? name = some b := by
  rw [Bindings.find?_eq]
  cases h with
  | inner hl => rw [hl, Option.some_or]
  | outer hl hg => rw [hl, hg, Option.none_or]

theorem Fits.find (h : Fits env W F B s) (hv : findVariable name loc env s = .ok v t) :
    t = s ∧ ∃ b, Found B name b ∧ Means W F v b.held := by
  obtain ⟨rfl, hfound⟩ := findVariable_ok hv
  refine ⟨rfl, ?_⟩
  rcases hfound with hl | ⟨hl, hg⟩
  · obtain ⟨b, i, hb, hagrees, hat⟩ := h.locals.find hl
    refine ⟨b, .inner hb, ?_⟩
    cases hheld : b.held with
    | text text =>
      rw [hheld] at hagrees
      exact .text hagrees.1 hagrees.2
    | stored x =>
      rw [hheld] at hagrees
      exact .slot hagrees.1 hagrees.2 (h.facts ▸ hat x hheld)
  · obtain ⟨b, i, hb, hagrees, hat⟩ := h.globals.find hg
    refine ⟨b, .outer (h.locals.find_none hl) hb, ?_⟩
    cases hheld : b.held with
    | text text =>
      rw [hheld] at hagrees
      exact .text hagrees.1 hagrees.2
    | stored x =>
      rw [hheld] at hagrees
      have hcell : W.cells[i]? = some x := h.cells ▸ hat x hheld
      refine .cell hagrees.1 hagrees.2 hcell fun hm => ?_
      rw [h.declared hm, h.count]
      exact (List.getElem?_eq_some_iff.mp hcell).1

theorem lookup_last {l : List (Nat × α)} (h : ∀ e ∈ l, e.1 < k) : (l ++ [(k, a)]).lookup k = some a := by
  have hnone : l.lookup k = none := by
    rw [List.lookup_eq_none_iff]
    intro e he
    have hlt := h e he
    simp only [bne_iff_ne, ne_eq]
    omega
  rw [List.lookup_append, hnone]
  simp

theorem Fits.access (h : Fits env W F B s) (hsame : Untouched s t) (hcode : t.code.toList = s.code.toList ++ [i])
    (hnext : t.nextReg = (W.kinds ++ new).length)
    (hleads : Leads (W.touching (W.kinds ++ new) W.cells W.slots (reached s) a) (reached s) F i F')
    (hlocals : F'.locals = F.locals) (hcells : F'.cells = F.cells) (hascends : Ascends s.nextReg [i] t.nextReg) :
    Extends env [(reached s, a)] [] W F s (W.touching (W.kinds ++ new) W.cells W.slots (reached s) a) F' B t := by
  refine h.leaf (List.prefix_append _ _) hnext rfl (hsame.fitted ?_) (fun x hx => .inl (hlocals ▸ hx)) (fun x => .inl)
    (prefix_refl _) (Nat.le_refl _) hcode hleads hascends hsame.shaped
  exact { h.toFitted with
    facts := hlocals.trans h.facts
    used := hlocals ▸ h.used
    declared := fun hm => hcells.trans (h.declared hm)
    nodup := hlocals ▸ h.nodup }

def readOf (k : Nat) (b : Binding) : Operand → List (Nat × Access)
  | .reg _ d => (b.stored?.map fun x => (k, Access.reads x d)).toList
  | _ => []

def assignOf (k : Nat) (b : Binding) : Operand → List (Nat × Access)
  | .reg _ r => (b.stored?.map fun x => (k, Access.assigns x r)).toList
  | _ => []

theorem Fits.load (h : Fits env W F B s) (hx : Located W F pl x)
    (hrun : loadPlace pl (.value x.ty) loc env s = .ok v t) :
    ∃ d W' F', v = .reg x.ty d ∧ Extends env [(reached s, .reads x d)] [] W F s W' F' B t ∧
      HasAll W'.kinds F'.written (contents v) := by
  have hload : loadPlace pl (.value x.ty) loc env s = .ok (.reg x.ty s.nextReg)
      { s with code := s.code.push (.load s.nextReg x.ty pl), nextReg := s.nextReg + 1 } := rfl
  cases hload.symm.trans hrun
  let i : Instr := .load s.nextReg x.ty pl
  let W' := W.touching (W.kinds ++ [.value x.ty]) W.cells W.slots (reached s) (.reads x s.nextReg)
  have hkind : W'.kinds[s.nextReg]? = some (.value x.ty) := by
    rw [h.next]
    simp [W', World.touching]
  have hlocated : Located W' F pl x := by
    cases hx with
    | slot hi => exact .slot hi
    | cell hi hm => exact .cell hi hm
  refine ⟨_, W', F.write i, rfl, h.access ⟨⟨rfl, rfl, rfl, rfl, rfl, rfl⟩, ⟨rfl, rfl, rfl, rfl, rfl⟩⟩ ?_ ?_
    (.reads (lookup_last h.accesses.below) hlocated hkind) rfl rfl (.write rfl), ?_⟩
  · exact Array.toList_push
  · simp [h.next]
  · intro y hy
    obtain rfl := mem_singleton.mp hy
    exact ⟨hkind, mem_cons_self⟩

theorem loadVariable_extends (h : Fits env W F B s) (hrun : loadVariable name loc env s = .ok v t) :
    ∃ b W' F', B.find? name = some b ∧ b.held.Gives v ∧
      Extends env (readOf (reached s) b v) [] W F s W' F' B t ∧ HasAll W'.kinds F'.written (contents v) := by
  obtain ⟨w, s₁, hfind, hrest⟩ := bind_ok hrun
  obtain ⟨rfl, b, hb, hmeans⟩ := h.find hfind
  obtain ⟨bname, held⟩ := b
  cases hmeans with
  | @text text hty hstorage =>
    rw [hstorage] at hrest
    obtain ⟨rfl, rfl⟩ := pure_ok hrest
    exact ⟨_, W, F, hb.find?, rfl, .refl h, nofun⟩
  | slot hty hstorage hat =>
    rw [hstorage, hty] at hrest
    obtain ⟨d, W', F', rfl, hext, hgives⟩ := h.load (.slot hat) hrest
    exact ⟨_, W', F', hb.find?, ⟨d, rfl⟩, hext, hgives⟩
  | cell hty hstorage hat hm =>
    rw [hstorage, hty] at hrest
    obtain ⟨d, W', F', rfl, hext, hgives⟩ := h.load (.cell hat hm) hrest
    exact ⟨_, W', F', hb.find?, ⟨d, rfl⟩, hext, hgives⟩

theorem Fits.store (h : Fits env W F B s) (hx : Located W F pl x)
    (hk : HasAll W.kinds F.written (contents value)) (hty : value.dataType = .value x.ty)
    (hrun : storePlace pl value loc env s = .ok u t) :
    ∃ r W' F', value = .reg x.ty r ∧ Extends env [(reached s, .assigns x r)] [] W F s W' F' B t := by
  cases value with
  | nothing | literal | blockdef => exact (fail_ok hrun).elim
  | reg ty r =>
    obtain rfl : ty = x.ty := by
      cases hty
      rfl
    cases hrun
    have hr : Has W.kinds F.written r (.value x.ty) := hk _ mem_cons_self
    let W' := W.touching (W.kinds ++ []) W.cells W.slots (reached s) (.assigns x r)
    have hlocated : Located W' F pl x := by
      cases hx with
      | slot hi => exact .slot hi
      | cell hi hm => exact .cell hi hm
    have hr' : Has W'.kinds F.written r (.value x.ty) := hr.mono (List.prefix_append _ _) (List.Subset.refl _)
    have hleads : Leads W' (reached s) F (.store pl r) F := .assigns (lookup_last h.accesses.below) hlocated hr'
    refine ⟨r, W', F, rfl, h.access ⟨⟨rfl, rfl, rfl, rfl, rfl, rfl⟩, ⟨rfl, rfl, rfl, rfl, rfl⟩⟩ ?_ ?_ hleads rfl rfl
      (.silent rfl rfl)⟩
    · exact Array.toList_push
    · simp [h.next]

theorem any_of_find? {bs : List Binding} (h : bs.find? (·.name == name) = some b) :
    bs.any (·.name == name) = true := by
  rw [List.any_eq_true]
  exact ⟨b, List.mem_of_find?_eq_some h, by simpa using List.find?_some h⟩

theorem any_of_find?_none {bs : List Binding} (h : bs.find? (·.name == name) = none) :
    bs.any (·.name == name) = false := by
  rw [List.any_eq_false]
  exact List.find?_eq_none.mp h

theorem Fits.retext (h : Fits env W F B s) (hb : Found B name b) (hheld : b.held = .text old)
    (hfind : findVariable name loc env s = .ok v s) (text : String) :
    Extends env [] [] W F s W F (B.assign name text) (texted s name text) := by
  obtain ⟨-, hfound⟩ := findVariable_ok hfind
  rcases hfound with hl | ⟨hl, hg⟩
  · have hlocal : B.locals.find? (·.name == name) = some b := by
      cases hb with
      | inner hb => exact hb
      | outer hnone _ =>
        obtain ⟨c, i, hc, -⟩ := h.locals.find hl
        cases hnone.symm.trans hc
    have htext : Names.IsText name B.locals := fun c hc => by
      cases hlocal.symm.trans hc
      exact ⟨old, hheld⟩
    obtain ⟨hlocals, hglobals, hblocks, hown, hmain⟩ := Bindings.assign_local (any_of_find? hlocal) htext text
    obtain ⟨hframes, -⟩ := scopes_of_shape hblocks hown
    obtain ⟨i, hi, -⟩ := getElem?_lastNamed hl
    have htexted : texted s name text =
        { s with scopes := { s.scopes with locals := Flow.retext s.scopes.locals i text } } := by
      simp only [texted, hi]
    rw [htexted]
    refine .renamed ?_ rfl rfl ⟨rfl, rfl, rfl, rfl, rfl⟩
    exact { h with
      main := h.main.trans hmain.symm
      kind := hmain.trans h.kind
      locals := by
        rw [hlocals, stack_retext hi]
        exact h.locals.retext htext text
      facts := by
        rw [h.facts, hlocals, storedIn_of_shape (Names.shape_retext htext)]
      frames := h.frames.trans hframes.symm
      own := fun hm => by
        have hlength := length_of_shape hown
        rw [h.own (hmain ▸ hm)] at hlength
        exact List.eq_nil_of_length_eq_zero hlength
      globals := hglobals ▸ h.globals
      cells := hglobals ▸ h.cells }
  · have hnone := h.locals.find_none hl
    have hglobal : B.globals.find? (·.name == name) = some b := by
      cases hb with
      | inner hb => cases hnone.symm.trans hb
      | outer _ hb => exact hb
    have htext : Names.IsText name B.globals := fun c hc => by
      cases hglobal.symm.trans hc
      exact ⟨old, hheld⟩
    obtain ⟨i, hi, -⟩ := getElem?_lastNamed hg
    have htexted : texted s name text = { s with globals := Flow.retext s.globals i text } := by
      simp only [texted, lastNamed_none hl, hi]
    rw [htexted, Bindings.assign_global (any_of_find?_none hnone)]
    refine .renamed ?_ rfl rfl ⟨rfl, rfl, rfl, rfl, rfl⟩
    exact { h with
      globals := by
        rw [stack_retext hi]
        exact h.globals.retext htext text
      cells := by
        rw [h.cells, storedIn_of_shape (Names.shape_retext htext)] }

def Bindings.assigned (B : Bindings) (name : String) : Operand → Bindings
  | .literal text => B.assign name text
  | _ => B

theorem storeVariable_extends (h : Fits env W F B s) (hk : HasAll W.kinds F.written (contents value))
    (hrun : storeVariable name value loc env s = .ok u t) : ∃ b W' F', B.find? name = some b ∧ b.held.Takes value ∧
      Extends env (assignOf (reached s) b value) [] W F s W' F' (Bindings.assigned B name value) t := by
  obtain ⟨v, s₁, hfind, hrest⟩ := bind_ok hrun
  obtain ⟨rfl, b, hb, hmeans⟩ := h.find hfind
  obtain ⟨bname, held⟩ := b
  split at hrest
  · exact (fail_ok hrest).elim
  next htype =>
    have htype : v.ty = value.dataType := Decidable.not_not.mp htype
    cases hmeans with
    | @text old hty hstorage =>
      rw [hstorage] at hrest
      cases value with
      | nothing | blockdef | reg => exact (fail_ok hrest).elim
      | literal text =>
        cases (setConstant_run name text env s₁).symm.trans hrest
        exact ⟨_, W, F, hb.find?, ⟨text, rfl⟩, h.retext hb rfl hfind text⟩
    | slot hty hstorage hat =>
      rw [hstorage] at hrest
      obtain ⟨r, W', F', rfl, hext⟩ := h.store (.slot hat) hk (htype.symm.trans hty) hrest
      exact ⟨_, W', F', hb.find?, ⟨r, rfl⟩, hext⟩
    | cell hty hstorage hat hm =>
      rw [hstorage] at hrest
      obtain ⟨r, W', F', rfl, hext⟩ := h.store (.cell hat hm) hk (htype.symm.trans hty) hrest
      exact ⟨_, W', F', hb.find?, ⟨r, rfl⟩, hext⟩

/-! ### Declaring -/

def registering (pl : Place) (ty : ValueType) (d : Reg) : Output :=
  bif ty.isHeap then ⟨[.address d pl, .entry (d + 1) .addRoot [d]], d + 2, true, none⟩ else .none d

theorem initialise_run (pl : Place) (ty : ValueType) (r : Reg) (env : LowerEnv) (s : LowerState) :
    initialise pl ty r env s =
      .ok () ((registering pl ty s.nextReg).onto { s with code := s.code.push (.store pl r) }) := by
  cases hheap : ty.isHeap with
  | false =>
    have hnone := Output.onto_none { s with code := s.code.push (.store pl r) }
    simp only [initialise, registering, hheap, cond_false]
    exact congrArg (EStateM.Result.ok ()) hnone.symm
  | true =>
    have hcode : s.code.push (.store pl r) ++ [Instr.address s.nextReg pl,
          .entry (s.nextReg + 1) .addRoot [s.nextReg]] =
        ((s.code.push (.store pl r)).push (.address s.nextReg pl)).push
          (.entry (s.nextReg + 1) .addRoot [s.nextReg]) := by
      apply Array.ext'
      simp
    simp only [initialise, registering, hheap, cond_true, Output.onto, hcode]
    rfl

theorem Fits.registering (h : Fits env W F B s) (pl : Place) (ty : ValueType) :
    ∃ W' F', Extends env [] [] W F s W' F' B ((registering pl ty s.nextReg).onto s) := by
  cases hheap : ty.isHeap with
  | false =>
    refine ⟨W, F, ?_⟩
    simp only [Tracing.registering, hheap, cond_false, Output.onto_none]
    exact .refl h
  | true =>
    simp only [Tracing.registering, hheap, cond_true]
    let o : Output := ⟨[.address s.nextReg pl, .entry (s.nextReg + 1) .addRoot [s.nextReg]], s.nextReg + 2,
      true, none⟩
    have hplace : (W.kinds ++ [Content.place, .void])[s.nextReg]? = some .place := by
      rw [h.next]
      simp
    have hvoid : (W.kinds ++ [Content.place, .void])[s.nextReg + 1]? = some .void := by
      rw [h.next]
      simp
    have hline : Line W.ctx (W.kinds ++ [.place, .void]) F.written o.code
        ((s.nextReg + 1) :: s.nextReg :: F.written) := by
      have hknown : HasAll (W.kinds ++ [.place, .void]) (s.nextReg :: F.written) [(s.nextReg, .place)] := by
        intro y hy
        obtain rfl := mem_singleton.mp hy
        exact ⟨hplace, mem_cons_self⟩
      exact .cons (.address hplace) (.cons (.entry hknown rfl rfl hvoid) .nil)
    refine ⟨_, _, h.line (untouched_onto o s) (o.code_onto s) ?_ hline ((Ascends.write rfl).append (.write rfl))⟩
    rw [Output.nextReg_onto, List.length_append, ← h.next]
    rfl

def boundLocal (s : LowerState) (v : Variable) : LowerState :=
  { s with scopes := { s.scopes with locals := s.scopes.locals.push v } }

def boundGlobal (s : LowerState) (v : Variable) : LowerState :=
  { s with globals := s.globals.push v }

theorem onto_boundLocal (o : Output) (s : LowerState) (v : Variable) :
    boundLocal (o.onto s) v = o.onto (boundLocal s v) := by
  simp only [Output.onto, boundLocal]
  cases o.required <;> rfl

theorem Fits.length_blocks (h : Fits env W F B s) : s.scopes.variableFrames.size = B.blocks.length := by
  have hlength := congrArg List.length h.frames
  rw [length_framesOf] at hlength
  simpa [stack] using hlength

theorem Fits.topLevel (h : Fits env W F B s)
    (hlevel : env.kind = .main → s.scopes.control.size = s.scopes.variableFrames.size)
    (hrun : isGlobalScope env s = .ok b t) : t = s ∧ b = B.isTop := by
  have hscope : isGlobalScope env s = .ok (env.kind == .main && s.scopes.controlDepth == 0) s := rfl
  cases hscope.symm.trans hrun
  refine ⟨rfl, ?_⟩
  rw [isTop, h.kind]
  cases hkind : env.kind == .main with
  | false => rfl
  | true =>
    rw [Bool.true_and, Bool.true_and, Scopes.controlDepth, hlevel (eq_of_beq hkind), h.length_blocks]
    cases B.blocks <;> rfl

theorem Fits.declareText (h : Fits env W F B s) (name text : String) :
    Extends env [] [] W F s W F (B.declare ⟨name, .text text⟩)
      (if B.isTop then boundGlobal s ⟨name, .literal, .constant text⟩
        else boundLocal s ⟨name, .literal, .constant text⟩) := by
  cases htop : B.isTop with
  | true =>
    rw [Bindings.globals_declare htop]
    refine .renamed { h with globals := ?_, cells := ?_ } rfl rfl ⟨rfl, rfl, rfl, rfl, rfl⟩
    · show Matches .global (stack (s.globals.push _)) _
      rw [stack_push]
      exact .cons rfl ⟨rfl, rfl⟩ h.globals
    · rw [h.cells]
      exact (append_nil _).symm.trans (storedIn_cons ⟨name, .text text⟩ B.globals).symm
  | false =>
    obtain ⟨hlocals, hglobals, hframes, -, hmain, hown⟩ := Bindings.locals_declare (b := ⟨name, .text text⟩) htop
    refine .renamed ?_ rfl rfl ⟨rfl, rfl, rfl, rfl, rfl⟩
    exact { h with
      main := h.main.trans hmain.symm
      kind := hmain.trans h.kind
      locals := by
        show Matches .slot (stack (s.scopes.locals.push _)) _
        rw [stack_push, hlocals]
        exact .cons rfl ⟨rfl, rfl⟩ h.locals
      facts := by
        rw [h.facts, hlocals]
        exact (append_nil _).symm.trans (storedIn_cons ⟨name, .text text⟩ B.locals).symm
      frames := h.frames.trans hframes.symm
      own := fun hm => (hown (hmain ▸ hm)).trans (h.own (hmain ▸ hm))
      globals := hglobals ▸ h.globals
      cells := hglobals ▸ h.cells }

theorem nodup_snoc {x : Stored} (h : l.Nodup) (hx : x ∉ l) : (l ++ [x]).Nodup := by
  refine List.nodup_append.mpr ⟨h, by simp, fun y hy z hz => ?_⟩
  obtain rfl := mem_singleton.mp hz
  rintro rfl
  exact hx hy

theorem Fits.declareLocal {slots : Array Nat} (h : Fits env W F B s) (name : String) (loc : Location)
    (htop : B.isTop = false) (hr : Has W.kinds F.written r (.value ty))
    (hid : ∀ i j : Nat, slots[i]? = some j → j = i) (hroom : s.scopes.slotsUsed + 1 ≤ slots.size)
    (hgrow : s.scopes.slots.size ≤ slots.size) :
    ∃ W' F', Extends env [(reached s, .declares ⟨loc, reached s, ty, false⟩ r)] [] W F s W' F'
      (B.declare ⟨name, .stored ⟨loc, reached s, ty, false⟩⟩)
      (boundLocal { s with
        code := s.code.push (.store (.slot s.scopes.slotsUsed) r)
        scopes := { s.scopes with slots, slotsUsed := s.scopes.slotsUsed + 1 } }
        ⟨name, .value ty, .slot s.scopes.slotsUsed⟩) := by
  let x : Stored := ⟨loc, reached s, ty, false⟩
  let W' := W.touching W.kinds W.cells slots.size (reached s) (.declares x r)
  obtain ⟨hlocals, hglobals, hframes, -, hmain, hown⟩ := Bindings.locals_declare (b := ⟨name, .stored x⟩) htop
  have hnew : x ∉ F.locals := fun hx => Nat.lt_irrefl _ (h.young x hx).1
  have hslots : F.locals.length < W'.slots := by
    rw [← h.used]
    exact hroom
  have hleads : Leads W' (reached s) F (.store (.slot s.scopes.slotsUsed) r) { F with locals := F.locals ++ [x] } := by
    have hstep := Leads.declares (W := W') (F := F) (r := r) (lookup_last h.accesses.below) rfl hnew hslots hr
    rwa [← h.used] at hstep
  refine ⟨W', _, h.leaf (prefix_refl _) h.next hmain ?_ (fun y hy => ?_) (fun y => .inl) (prefix_refl _)
    (h.size ▸ hgrow) Array.toList_push hleads (.silent rfl rfl) ⟨rfl, rfl, rfl, rfl, rfl⟩⟩
  · exact
      { h.toFitted with
        main := h.main.trans hmain.symm
        locals := by
          show Matches .slot (stack (s.scopes.locals.push _)) _
          rw [stack_push, hlocals]
          refine .cons rfl ⟨rfl, ?_⟩ h.locals
          rw [← h.facts, h.used]
        facts := by
          show F.locals ++ [x] = _
          rw [hlocals, storedIn_cons, h.facts]
          rfl
        frames := h.frames.trans hframes.symm
        used := by
          show s.scopes.slotsUsed + 1 = _
          rw [h.used, List.length_append]
          rfl
        slots := hid
        room := hroom
        size := rfl
        globals := hglobals ▸ h.globals
        cells := hglobals ▸ h.cells
        own := fun hm => (hown (hmain ▸ hm)).trans (h.own (hmain ▸ hm))
        nodup := nodup_snoc h.nodup hnew }
  · rcases List.mem_append.mp hy with hy | hy
    · exact .inl hy
    · obtain rfl := mem_singleton.mp hy
      exact .inr ⟨rfl, rfl⟩

theorem Fits.declareGlobal (h : Fits env W F B s) (name : String) (loc : Location)
    (htop : B.isTop = true) (hr : Has W.kinds F.written r (.value ty)) :
    ∃ W' F', Extends env [(reached s, .declares ⟨loc, reached s, ty, true⟩ r)] [] W F s W' F'
      (B.declare ⟨name, .stored ⟨loc, reached s, ty, true⟩⟩)
      (boundGlobal { s with code := s.code.push (.store (.global s.cells) r), cells := s.cells + 1 }
        ⟨name, .value ty, .global s.cells⟩) := by
  let x : Stored := ⟨loc, reached s, ty, true⟩
  let W' := W.touching W.kinds (W.cells ++ [x]) W.slots (reached s) (.declares x r)
  rw [Bindings.globals_declare htop]
  have hmain : W.main = true := h.main.trans (Bool.and_eq_true_iff.mp htop).1
  have hcells : F.cells = s.cells := h.declared hmain
  have hcell : W'.cells[F.cells]? = some x := by
    rw [hcells, h.count]
    simp [W', World.touching]
  have hleads : Leads W' (reached s) F (.store (.global s.cells) r) { F with cells := F.cells + 1 } := by
    rw [← hcells]
    exact .declaresCell (lookup_last h.accesses.below) hmain hcell hr
  have hmem : ∀ y ∈ W.cells ++ [x], y ∈ W.cells ∨ y = x := fun y hy =>
    (List.mem_append.mp hy).imp_right mem_singleton.mp
  refine ⟨W', { F with cells := F.cells + 1 }, h.leaf (prefix_refl _) h.next rfl ?_ (fun y => .inl) (fun y hy => ?_) (List.prefix_append _ _)
    (Nat.le_refl _) Array.toList_push hleads (.silent rfl rfl) ⟨rfl, rfl, rfl, rfl, rfl⟩⟩
  · exact { h.toFitted with
      globals := by
        show Matches .global (stack (s.globals.push _)) _
        rw [stack_push]
        refine .cons rfl ⟨rfl, ?_⟩ h.globals
        rw [← h.cells, h.count]
      cells := by
        show W.cells ++ [x] = _
        rw [storedIn_cons, h.cells]
        rfl
      count := by
        show s.cells + 1 = (W.cells ++ [x]).length
        rw [h.count, List.length_append]
        rfl
      declared := fun hm => congrArg (· + 1) (h.declared hm)
      distinct := nodup_snoc h.distinct fun hx => Nat.lt_irrefl _ (h.youngCells hmain x hx)
      isGlobal := fun y hy => (hmem y hy).elim (h.isGlobal y) fun hy => by rw [hy] }
  · exact (hmem y hy).imp_right fun hy => by rw [hy]

inductive Declares (env : LowerEnv) (W : World) (F : Facts) (B : Bindings) (s : LowerState) (name : String)
    (loc : Location) (t : LowerState) : Operand → Prop where
  | text : Extends env [] [] W F s W F (B.declare ⟨name, .text text⟩) t →
      Declares env W F B s name loc t (.literal text)
  | stored :
      Extends env [(reached s, .declares ⟨loc, reached s, ty, B.isTop⟩ r)] [] W F s W' F'
        (B.declare ⟨name, .stored ⟨loc, reached s, ty, B.isTop⟩⟩) t →
      Declares env W F B s name loc t (.reg ty r)

theorem declareVariable_extends (h : Fits env W F B s) (hk : HasAll W.kinds F.written (contents value))
    (hlevel : env.kind = .main → s.scopes.control.size = s.scopes.variableFrames.size)
    (hrun : declareVariable name value loc env s = .ok u t) : Declares env W F B s name loc t value := by
  obtain ⟨b, s₁, hscope, hrest⟩ := bind_ok hrun
  obtain ⟨rfl, rfl⟩ := h.topLevel hlevel hscope
  cases value with
  | nothing | blockdef => exact (fail_ok hrest).elim
  | literal text =>
    have hext := h.declareText name text
    cases htop : B.isTop with
    | true | false =>
      rw [htop] at hrest hext
      cases hrest
      exact .text hext
  | reg ty r =>
    have hr : Has W.kinds F.written r (.value ty) := hk _ mem_cons_self
    cases htop : B.isTop with
    | true =>
      rw [htop] at hrest
      obtain ⟨i, s₂, htake, hrest⟩ := bind_ok hrest
      cases htake
      obtain ⟨⟨⟩, s₃, hinit, hbind⟩ := bind_ok hrest
      cases (initialise_run _ _ _ _ _).symm.trans hinit
      obtain ⟨W', F', hext⟩ := h.declareGlobal name loc htop hr
      obtain ⟨W'', F'', hreg⟩ := hext.fits.registering (.global s₁.cells) ty
      refine .stored (?_ : Extends env _ [] W F s₁ W'' F'' _ t)
      rw [htop]
      have hboth := hext.trans hreg
      cases hbind
      exact hboth
    | false =>
      rw [htop] at hrest
      obtain ⟨i, s₂, htake, hrest⟩ := bind_ok hrest
      obtain ⟨rfl, slots, rfl, hid, hroom, hgrow⟩ := takeSlot_ok h.slots h.room htake
      obtain ⟨⟨⟩, s₃, hinit, hbind⟩ := bind_ok hrest
      cases (initialise_run _ _ _ _ _).symm.trans hinit
      obtain ⟨W', F', hext⟩ := h.declareLocal name loc htop hr hid hroom hgrow
      obtain ⟨W'', F'', hreg⟩ := hext.fits.registering (.slot s₁.scopes.slotsUsed) ty
      refine .stored (?_ : Extends env _ [] W F s₁ W'' F'' _ t)
      rw [htop]
      have hboth := hext.trans hreg
      cases hbind
      rw [← onto_boundLocal] at hboth
      exact hboth

end

end Blockwork.Tracing
