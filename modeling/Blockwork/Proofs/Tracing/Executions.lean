import Blockwork.Proofs.Rooting.Balance
import Blockwork.Proofs.Tracing.Advancing

/-! # Variables in every run
Every run of a compiled program is traced from its start, and what holds of a traced program holds whenever one
of its instructions runs. -/

namespace Blockwork

open Typing Machine Activation

def Content.isValue : Content → Bool
  | .value _ => true
  | _ => false

def Activation.finds (a : Activation) : Instr → Bool
  | .unary _ op r => op.accepts (a.get r).content
  | .binary _ op l r => op.accepts (a.get l).content (a.get r).content
  | .element _ r => (a.get r).content.isValue
  | .store _ r => (a.get r).content.isValue
  | .entry _ e args => e.accepts (args.map fun r => (a.get r).content)
  | .call _ _ args => args.all fun r => (a.get r).content = .value .any
  | .ret (some r) => (a.get r).content = .value .any
  | .ifThen c _ => (a.get c).content = .value .bool
  | .countLoop c _ => (a.get c).content = .value .integer
  | _ => true

/-- Whether the next step of a machine finds its operands at kinds that it accepts. -/
def Machine.findsOperands (m : Machine) : Bool :=
  match m.active.code, m.active.konts with
  | i :: _, _ => m.active.finds i
  | [], .whileTest _ c _ _ :: _ => (m.active.get c).content = .value .bool
  | [], _ => true

namespace Tracing

open Event

variable {p : Program} {code : ProgramCode} {Y : Layout p code} {n : Nat} {m m' : Machine} {s : Session}
  {inv : Invocation} {invs : List Invocation} {W : World} {F : Facts} {e : Event} {x : Stored} {d r : Reg}

theorem Traced.visit (h : Traced Y n m inv invs W F L) (host : Host) :
    Traced Y n (host.visit n m) inv invs W F L := by
  obtain ⟨hframe, htop, hbirth, hbottom, hstack, hcells⟩ := h
  rw [← host.memory_act n m.session] at hframe htop hstack hcells
  exact ⟨hframe, htop, hbirth, hbottom, hstack, hcells⟩

theorem Traced.load (Y : Layout p code) (hs : s.Fresh) :
    ∃ W F, Traced Y 0 (Machine.load code s) ⟨none, 0, 0⟩ [] W F [] := by
  obtain ⟨W, hmain⟩ := Y.main
  obtain ⟨⟨low, limit, hmemory⟩, -⟩ := hs
  have hslots : (Machine.load code s).session.memory.slots =
      Array.replicate (code.cells + code.main.slots) .zero := by
    show s.memory.slots ++ _ = _
    rw [hmemory]
    exact Array.empty_append
  have hzero : ∀ i, (Machine.load code s).session.memory.slot i = .zero := by
    intro i
    rw [Memory.slot, hslots, Array.getD_eq_getD_getElem?, Array.getElem?_replicate]
    split <;> rfl
  refine ⟨W, startFacts 0, ⟨⟨⟨0, code.main, hmain⟩, hmain.starts, ?_, ?_, .nil _ _ _ _ _, ?_⟩, ?_,
    Nat.le_refl _, ⟨fun _ => rfl, fun _ => rfl⟩, .nil, ?_⟩⟩
  · exact .start hmain.kinds (fun i hi => absurd hi (Nat.not_lt_zero _)) (List.forall_mem_nil _)
  · exact Nat.le_of_eq Y.count.symm
  · exact fun _ i hi => absurd hi (Nat.not_lt_zero _)
  · have hroom := hmain.slots
    show code.cells + W.slots ≤ _
    rw [hslots, Array.size_replicate]
    omega
  · exact fun i x _ => hzero i

theorem event?_eq (hm : advance code h (load code s) n = .running m)
    (htrail : trail code h (load code s) n = inv :: invs) (htold : Y.Describes inv.function W) :
    p.event? code h s n = W.eventAt inv (h.visit n m) (step code (h.visit n m)) := by
  obtain ⟨n', f, hdescribed⟩ := htold
  have haccesses : p.accessesOf inv.function = W.accesses := hdescribed.accesses.symm
  simp only [Program.event?, hm, htrail, advance_succ hm, World.eventAt, haccesses]
  rfl

theorem traced_run (Y : Layout p code) (hs : s.Fresh) (h : Host) :
    ∀ {n m}, advance code h (load code s) n = .running m →
      ∃ inv invs W F, trail code h (load code s) n = inv :: invs ∧
        Traced Y n m inv invs W F (p.history code h s n) := by
  intro n
  induction n with
  | zero =>
    intro m hm
    cases hm
    obtain ⟨W, F, htraced⟩ := Traced.load Y hs
    exact ⟨_, [], W, F, rfl, htraced⟩
  | succ n ih =>
    intro m' hm'
    obtain ⟨m, hm, hstep⟩ := running_succ hm'
    obtain ⟨inv, invs, W, F, htrail, htraced⟩ := ih hm
    obtain ⟨inv', invs', W', F', hfollow, htraced'⟩ := (htraced.visit h).step hstep
    refine ⟨inv', invs', W', F', ?_, ?_⟩
    · rw [trail_succ hm, htrail, hfollow]
    · rw [Program.history, event?_eq hm htrail htraced.frame.told, hstep]
      exact htraced'

/-! ### What a step finds -/

theorem Value.readAs_of_content {v : Value} (h : v.content = .value ty) : v.readAs ty = v := by
  cases v with
  | zero => cases h
  | _ => rfl

theorem Traced.leads (h : Traced Y n m inv invs W F L) (he : W.eventAt inv m next = some e) :
    ∃ i is F₁, m.active.code = i :: is ∧ Leads W inv.pc F i F₁ ∧ W.accesses.lookup inv.pc = some e.access ∧
      e = ⟨inv, e.access, e.access.value (.running m) next⟩ := by
  cases hleaf : m.atLeaf with
  | false =>
    rw [eventAt_control hleaf] at he
    cases he
  | true =>
    rw [World.eventAt, if_pos hleaf, Option.map_eq_some_iff] at he
    obtain ⟨acc, hacc, rfl⟩ := he
    unfold atLeaf at hleaf
    split at hleaf
    next i is hcode =>
      have hstands := h.frame.stands
      rw [hcode] at hstands
      obtain ⟨F₁, hleads, -⟩ := hstands.leaf hleaf
      exact ⟨i, is, F₁, hcode, hleads, hacc, rfl⟩
    next => cases hleaf

theorem Traced.reads (h : Traced Y n m inv invs W F L) (he : W.eventAt inv m (Machine.step code m) = some e)
    (hx : e.access = .reads x d) : e.invocation = inv ∧ ∃ pl, Located W F pl x ∧
      e.value = (m.session.memory.slot (m.active.place pl)).readAs x.ty := by
  obtain ⟨i, is, F₁, hcode, hleads, hlookup, heq⟩ := h.leads he
  rw [hx] at hlookup heq
  obtain ⟨s, ⟨_, ks, regs, base, dst⟩, ws⟩ := m
  subst hcode
  cases hleads with
  | plain _ hnone => cases hnone.symm.trans hlookup
  | assigns hy _ _ | declares hy _ _ _ _ | declaresCell hy _ _ _ | closes hy _ _ => cases hy.symm.trans hlookup
  | @reads d' pl y hy hpl hd =>
    cases hy.symm.trans hlookup
    have hsize : d < regs.size := by
      rw [h.frame.regs.size]
      exact (List.getElem?_eq_some_iff.mp hd).1
    rw [heq]
    exact ⟨rfl, pl, hpl, get_set_self ⟨is, ks, regs, base, dst⟩ d _ hsize⟩

theorem Traced.assigns (h : Traced Y n m inv invs W F L) (he : W.eventAt inv m (Machine.step code m) = some e)
    (hx : e.access = .assigns x r) : e.invocation = inv ∧ ∃ pl, Located W F pl x := by
  obtain ⟨i, is, F₁, hcode, hleads, hlookup, heq⟩ := h.leads he
  rw [hx] at hlookup
  cases hleads with
  | plain _ hnone => cases hnone.symm.trans hlookup
  | reads hy _ _ | declares hy _ _ _ _ | declaresCell hy _ _ _ | closes hy _ _ => cases hy.symm.trans hlookup
  | assigns hy hpl _ =>
    cases hy.symm.trans hlookup
    rw [heq]
    exact ⟨rfl, _, hpl⟩

theorem Registers.finds_leaf (h : Registers W D a) (hleaf : Leaf W.ctx W.kinds D i) : a.finds i = true := by
  cases hleaf with
  | unary hr hop _ => rw [finds, h.content hr, hop]
  | binary hl hr hop _ => rw [finds, h.content hl, h.content hr, hop]
  | element hr _ => rw [finds, h.content hr, Content.isValue]
  | @entry _ e args known hks hargs hop _ =>
    have hkinds : args.map (fun r => (a.get r).content) = known.map Prod.snd := by
      rw [hargs, List.map_map]
      exact List.map_congr_left fun x hx => h.content (hks x hx)
    rw [finds, hkinds, hop]
  | call _ hargs _ =>
    rw [finds, List.all_eq_true]
    exact fun r hr => decide_eq_true (h.content (hargs r hr))
  | retValue hr => exact decide_eq_true (h.content hr)
  | constant | address | poll | ret => rfl

theorem Traced.findsOperands (h : Traced Y n m inv invs W F L) : m.findsOperands = true := by
  have hregs := h.frame.regs
  obtain ⟨s, ⟨_ | ⟨i, is⟩, ks, regs, base, dst⟩, ws⟩ := m
  · cases ks with
    | nil => rfl
    | cons k ks =>
      cases k with
      | whileTest => exact decide_eq_true (hregs.content h.frame.stands.tested.1)
      | _ => rfl
  · cases hleaf : i.isLeaf with
    | true =>
      obtain ⟨F₁, hleads, -⟩ := h.frame.stands.leaf hleaf
      cases hleads with
      | plain hleaf _ => exact hregs.finds_leaf hleaf
      | assigns _ _ hr | declares _ _ _ _ hr | declaresCell _ _ _ hr =>
        show (get _ _).content.isValue = true
        rw [hregs.content hr, Content.isValue]
      | reads | closes => rfl
    | false =>
      cases i with
      | ifThen => exact decide_eq_true (hregs.content h.frame.stands.branch.1)
      | countLoop => exact decide_eq_true (hregs.content h.frame.stands.count.1)
      | rooted | whileLoop | foreverLoop => rfl
      | _ => cases hleaf

theorem Traced.noted (h : Traced Y n m inv invs W F L) (hnote : .noted note ∈ p.marksOf inv.function)
    (hstop : note.stop = inv.pc) (hvalue : note.value = .reg ty r) : (m.active.get r).content = .value ty := by
  obtain ⟨n', f, hdescribed⟩ := h.frame.told
  have hmem : (note.stop, r, Content.value ty) ∈ valuesOf (p.marksOf inv.function) := by
    refine List.mem_flatMap.mpr ⟨_, hnote, ?_⟩
    simp only [hvalue, contents, List.map_cons, List.map_nil, List.mem_singleton]
  have hdue := h.frame.stands.due _ (hdescribed.values ▸ hmem) hstop
  exact h.frame.regs.written r hdue _ (hdescribed.typed _ hmem).2

theorem exists_lastWrite (hx : x.isGlobal = true) (hdeclared : ∃ e ∈ L, e.declares x = true) (b : Nat) :
    lastWrite? L x b ≠ none := by
  obtain ⟨e, he, hdeclares⟩ := hdeclared
  intro hnone
  have hskipped := List.find?_eq_none.mp hnone e he
  rw [countsFor, hx, Bool.true_or, Bool.and_true] at hskipped
  refine hskipped (Bool.not_eq_false _ ▸ fun hwrites => ?_)
  rw [declares_of_writes hwrites] at hdeclares
  cases hdeclares

theorem Traced.read_value (h : Traced Y n m inv invs W F L) (he : W.eventAt inv m (Machine.step code m) = some e)
    (hx : e.access = .reads x d) : match lastWrite? L x e.invocation.birth with
    | some w => e.value = w.value
    | none => x.isGlobal = true ∧ e.invocation.function ≠ none ∧ e.value = .zeroOf x.ty := by
  obtain ⟨hinv, pl, hpl, hvalue⟩ := h.reads he hx
  rw [hinv, hvalue]
  rcases h.located_value hpl with ⟨hlocal, -⟩ | ⟨hcell, hglobal, hmain⟩
  · obtain ⟨w, hw, hsame⟩ := Option.map_eq_some_iff.mp hlocal.last
    rw [hw, Value.readAs_of_content hlocal.typed]
    exact hsame.symm
  · unfold CellHolds at hcell
    rw [lastWrite?_shared hglobal L 0 inv.birth] at hcell
    cases hw : lastWrite? L x inv.birth with
    | some w =>
      rw [hw] at hcell
      rw [Value.readAs_of_content hcell.2, hcell.1]
    | none =>
      simp only [hw] at hcell
      rw [hcell]
      exact ⟨hglobal, fun hfn => exists_lastWrite hglobal (hmain hfn) inv.birth hw, rfl⟩

theorem Traced.declared (h : Traced Y n m inv invs W F L) (hpl : Located W F pl x) :
    (x.isGlobal = false → isOpen L x inv.birth = true) ∧
      (x.isGlobal = true → inv.function = none → ∃ e ∈ L, e.declares x = true) := by
  rcases h.located_value hpl with ⟨hlocal, hx⟩ | ⟨-, hx, hmain⟩
  · refine ⟨fun _ => hlocal.isOpen, fun hglobal => ?_⟩
    cases hx.symm.trans hglobal
  · refine ⟨fun hlocal => ?_, fun _ => hmain⟩
    cases hx.symm.trans hlocal

end Tracing

def ProgramCode.Has (code : ProgramCode) : Option Nat → Prop
  | none => True
  | some i => i < code.functions.size

namespace Program

open Event Tracing

variable {p : Program} {code : ProgramCode} {s : Session}

theorem running_of_event (he : p.event? code h s n = some e) : ∃ m invs, advance code h (load code s) n = .running m ∧
      trail code h (load code s) n = e.invocation :: invs := by
  simp only [Program.event?] at he
  split at he
  next m inv invs hm htrail =>
    split at he
    next =>
      obtain ⟨acc, -, rfl⟩ := Option.map_eq_some_iff.mp he
      exact ⟨m, invs, hm, htrail⟩
    next => cases he
  next => cases he

theorem event_traced (Y : Layout p code) (hs : s.Fresh) (h : Host) (he : p.event? code h s n = some e) :
    ∃ m inv invs W F, Traced Y n m inv invs W F (p.history code h s n) ∧ W.eventAt inv m (step code m) = some e := by
  obtain ⟨m, invs, hm, -⟩ := running_of_event he
  obtain ⟨inv, invs, W, F, htrail, htraced⟩ := traced_run Y hs h hm
  rw [event?_eq hm htrail htraced.frame.told] at he
  exact ⟨h.visit n m, inv, invs, W, F, htraced.visit h, he⟩

theorem fresh_new (low limit : Nat) : ({ memory := .new low limit } : Session).Fresh :=
  ⟨⟨low, limit, rfl⟩, rfl⟩

theorem exists_event (p : Program) (s : Session) (n : Nat) (P : ProgramCode → Event → Bool)
    (h : (p.compile.result.toOption.any fun code => (p.event? code .idle s n).any (P code)) = true) :
    ∃ code e, p.compile.result = .ok code ∧ p.event? code .idle s n = some e ∧ P code e = true := by
  obtain ⟨code, hcode, hany⟩ := p.exists_code false _ h
  obtain ⟨e, he, hP⟩ := (Option.any_eq_true _ _).mp hany
  exact ⟨code, e, hcode, he, hP⟩

/-- Adds up threes: a variable of the program, and one of the body of a loop. -/
def tally : Program where
  chains :=
    [⟨[.mk "on_start" [], .mk "decl_var" [.text "total", .block (.mk "convert_int" [.text "0"])],
       .mk "repeat" [.text "2"],
       .mk "decl_var" [.text "step", .block (.mk "convert_int" [.text "3"])],
       .mk "set_var" [.text "total", .block (.mk "plus"
         [.block (.mk "get_var" [.text "total"]), .block (.mk "get_var" [.text "step"])])],
       .mk "end" [],
       .mk "print" [.block (.mk "get_var" [.text "total"])]]⟩]
  blockdefs := []

/-- Assigns a text in a branch that is not taken. -/
def untaken : Program where
  chains :=
    [⟨[.mk "on_start" [], .mk "decl_var" [.text "x", .text "a"], .mk "if" [.text ""],
       .mk "set_var" [.text "x", .text "b"],
       .mk "print" [.text "taken"],
       .mk "end" [],
       .mk "print" [.block (.mk "get_var" [.text "x"])]]⟩]
  blockdefs := []

/-- Whatever is read or assigned to was declared before: a variable of a function in the same invocation, since
its scope was entered; one of the program that the main function touches in the same run. To other functions
those that no step has given a value are zero. -/
theorem declared_before_use (hcode : p.compile.result = .ok code) (hs : s.Fresh) (h : Host) :
    ∀ n e x r, p.event? code h s n = some e → e.access = .reads x r ∨ e.access = .assigns x r →
      (x.isGlobal = false → isOpen (p.history code h s n) x e.invocation.birth = true) ∧
      (x.isGlobal = true → e.invocation.function = none → ∃ e' ∈ p.history code h s n, e'.declares x = true) ∧
      (e.access = .reads x r → (∀ e' ∈ p.history code h s n, e'.writes x = false) → e.value = .zeroOf x.ty) := by
  intro n e x r he hx
  obtain ⟨Y⟩ := compile_layout hcode
  obtain ⟨m, inv, invs, W, F, htraced, hevent⟩ := event_traced Y hs h he
  have hplace : e.invocation = inv ∧ ∃ pl, Located W F pl x := by
    rcases hx with hx | hx
    · obtain ⟨hinv, pl, hpl, -⟩ := htraced.reads hevent hx
      exact ⟨hinv, pl, hpl⟩
    · exact htraced.assigns hevent hx
  obtain ⟨rfl, pl, hpl⟩ := hplace
  refine ⟨(htraced.declared hpl).1, (htraced.declared hpl).2, fun hreads hnone => ?_⟩
  have hvalue := htraced.read_value hevent hreads
  have hlast : lastWrite? (p.history code h s n) x e.invocation.birth = none := by
    refine List.find?_eq_none.mpr fun w hw => ?_
    rw [hnone w hw]
    exact Bool.false_ne_true
  rw [hlast] at hvalue
  exact hvalue.2.2

/-- In the second round of the loop its variable was declared again. -/
theorem declared_before_use_tally : ∃ code e x d, tally.compile.result = .ok code ∧
      tally.event? code .idle { memory := .new 100 10000 } 20 = some e ∧ e.access = .reads x d ∧
      x.isGlobal = false ∧
      isOpen (tally.history code .idle { memory := .new 100 10000 } 20) x e.invocation.birth = true := by
  obtain ⟨code, e, hcode, he, hlocal⟩ := exists_event tally { memory := .new 100 10000 } 20
    (fun _ e => match e.access with
      | .reads x _ => !x.isGlobal
      | _ => false) (by decide +kernel)
  have hdeclared := declared_before_use hcode (fresh_new 100 10000) .idle 20 e
  split at hlocal
  next x d hx =>
    have hx' := (Bool.not_eq_true' _).mp hlocal
    exact ⟨code, e, x, d, hcode, he, hx, hx', (hdeclared x d he (.inl hx)).1 hx'⟩
  next => cases hlocal

/-- Calls a block that prints a variable, before and after the variable is declared. -/
def early : Program where
  chains :=
    [⟨[.mk "on_start" [], .mk "f" [], .mk "decl_var" [.text "x", .block (.mk "convert_int" [.text "5"])],
       .mk "f" []]⟩,
     ⟨[.definition "f", .mk "print" [.block (.mk "get_var" [.text "x"])]]⟩]
  blockdefs := [⟨"f", []⟩]

/-- The first call reads the variable although nothing has happened to any variable yet. -/
theorem early_reads_undeclared : ∃ code e x d, early.compile.result = .ok code ∧
      early.event? code .idle { memory := .new 100 10000 } 5 = some e ∧ e.access = .reads x d ∧
      early.history code .idle { memory := .new 100 10000 } 5 = [] ∧ e.value = .integer 0 := by
  obtain ⟨code, e, hcode, he, hreads⟩ := exists_event early { memory := .new 100 10000 } 5
    (fun code e => match e.access with
      | .reads _ _ =>
        (early.history code .idle { memory := .new 100 10000 } 5).isEmpty && e.value = .integer 0
      | _ => false) (by decide +kernel)
  split at hreads
  next x d hx =>
    rw [Bool.and_eq_true, List.isEmpty_iff, decide_eq_true_iff] at hreads
    exact ⟨code, e, x, d, hcode, he, hx, hreads⟩
  next => cases hreads

def isSum (pc : Nat) (r : Reg) : Mark → Bool
  | .noted note => note.operation? = some .plus && note.stop = pc && note.value = .reg .integer r
  | _ => false

end Program

end Blockwork
