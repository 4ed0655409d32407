import Blockwork.Program.Reader
import Blockwork.Program.Writer
import Blockwork.Proofs.Storing.Texts

/-! # Programs are read back
Whatever text a program was read from, its own stored text is within the limit, although every field is written in it:
the fields that a text may leave out lie where a bracket more still fits. -/

namespace Blockwork

namespace JsonText

/-! ### What a reader gives -/

def Gives {α : Type} (r : Reader α) (P : α → Prop) : Prop :=
  ∀ s a rest, r s = .ok (a, rest) → P a

section Gives

variable {α β σ : Type} {r : Reader α} {f : α → Reader β} {P : α → Prop} {Q : β → Prop}

theorem Gives.bind (hr : Gives r P) (hf : ∀ a, P a → Gives (f a) Q) : Gives (r >>= f) Q := by
  intro s b rest h
  cases hrun : r s with
  | error e =>
    rw [bind_error hrun] at h
    cases h
  | ok x =>
    obtain ⟨a, s'⟩ := x
    rw [bind_ok hrun] at h
    exact hf a (hr s a s' hrun) s' b rest h

theorem Gives.after (hf : ∀ a, Gives (f a) Q) : Gives (r >>= f) Q :=
  .bind (P := fun _ => True) (fun _ _ _ _ => trivial) fun a _ => hf a

theorem Gives.pure (h : P a) : Gives (Pure.pure a) P := by
  intro s b rest hrun
  cases hrun
  exact h

theorem Gives.map {g : α → β} (hr : Gives r P) (hg : ∀ a, P a → Q (g a)) : Gives (do return g (← r)) Q :=
  hr.bind fun a ha => .pure (hg a ha)

theorem Gives.refuse : Gives (refuse e) P := by
  intro s a rest h
  cases h

theorem Gives.refuseValue : Gives refuseValue P := by
  intro s a rest h
  cases h

theorem itemsFrom_gives (h : Gives item P) (bound : List Char) :
    ∀ first, Gives (itemsFrom item bound first) (∀ a ∈ ·, P a) := by
  induction bound with
  | nil => exact fun _ => .refuse
  | cons c bound ih =>
    intro first
    rw [itemsFrom]
    refine .after fun more => ?_
    split
    · exact h.bind fun a ha => (ih false).bind fun as has => .pure (List.forall_mem_cons.mpr ⟨ha, has⟩)
    · exact .after fun _ => .pure (List.forall_mem_nil _)

theorem list_gives (h : ∀ r ∈ item, Gives r P) : Gives (list item) (∀ a ∈ ·, P a) := by
  refine .after fun c => ?_
  split
  · exact .refuse
  · split
    · exact .refuse
    · exact .after fun _ => .after fun s => itemsFrom_gives (h _ rfl) s true
  · exact .refuseValue

def Keeps (fields : List (Member σ)) (I : σ → Prop) : Prop :=
  ∀ f ∈ fields, ∀ st, I st → Gives (f.read st) I

variable {fields : List (Member σ)} {I : σ → Prop}

theorem fieldValue_gives (h : Keeps fields I) (name : String) (hst : I st) : Gives (fieldValue fields name st) I := by
  unfold fieldValue
  split
  · next f hfind =>
    split
    · exact .refuse
    · exact .after fun _ => h f (List.mem_of_find?_eq_some hfind) st hst
  · exact .after fun _ => .after fun _ => .pure hst

theorem fieldsFrom_gives (h : Keeps fields I) (bound : List Char) :
    ∀ first st, I st → Gives (fieldsFrom fields bound first st) I := by
  induction bound with
  | nil => exact fun _ _ _ => .refuse
  | cons c bound ih =>
    intro first st hst
    rw [fieldsFrom]
    refine .after fun more => ?_
    split
    · exact .after fun _ => .after fun name => (fieldValue_gives h name hst).bind fun st hst => ih false st hst
    · exact .after fun _ => .pure hst

theorem fieldList_gives (h : Keeps fields I) : ∀ first st, I st → Gives (fieldList fields first st) I := by
  induction fields with
  | nil => exact fun _ _ hst => .pure hst
  | cons f fields ih =>
    intro first st hst
    have hrest : Keeps fields I := fun f hf => h f (List.mem_cons_of_mem _ hf)
    rw [fieldList]
    refine .after fun more => ?_
    split
    · exact (h f List.mem_cons_self st hst).bind fun st hst => ih hrest false st hst
    · exact ih hrest first st hst

theorem accept_gives (h : ∀ a ∈ finish, P a) : Gives (accept finish) P := by
  cases finish with
  | none => exact .refuse
  | some a => exact .pure (h a rfl)

theorem record_gives {finish : σ → Option α} (h : ∀ fields ∈ members, Keeps fields I) (hempty : I empty)
    (hfinish : ∀ st, I st → ∀ a ∈ finish st, P a) : Gives (record members empty finish) P := by
  refine .after fun c => ?_
  split
  · exact .refuse
  · split
    · exact .refuse
    · next fields =>
      exact .after fun _ => (fieldList_gives (h fields rfl) true empty hempty).bind fun st hst =>
        (accept_gives (hfinish st hst)).bind fun a ha => .after fun _ => .pure ha
  · split
    · exact .refuse
    · next fields =>
      exact .after fun _ => .after fun s => (fieldsFrom_gives (h fields rfl) s true empty hempty).bind fun st hst =>
        accept_gives (hfinish st hst)
  · exact .refuseValue

theorem tagged_gives (h : ∀ cs ∈ cases, ∀ x ∈ cs, Gives x.2 P) : Gives (tagged cases) P := by
  refine .after fun c => ?_
  split
  · exact .refuse
  · split
    · exact .refuse
    · next cs =>
      refine .after fun _ => .after fun tag => ?_
      split
      · exact .refuse
      · next value hvalue =>
        obtain ⟨before, after, rfl, -⟩ := List.lookup_eq_some_iff.mp hvalue
        have hvalue : Gives value P := h _ rfl (tag, value) (by simp)
        refine .after fun _ => hvalue.bind fun a ha => .after fun c => ?_
        split
        · exact .refuse
        · exact .after fun _ => .pure ha
        · exact .refuse
  · exact .after fun _ => .after fun _ => .refuse
  · exact .refuse

end Gives

theorem Tree.depthItems_map_le {α : Type} {tree : α → Tree} {as : List α} :
    Tree.depthItems (as.map tree) ≤ n ↔ ∀ a ∈ as, (tree a).depth ≤ n := by
  induction as with
  | nil => simp [Tree.depthItems]
  | cons a as ih => simp [Tree.depthItems, Nat.max_le, ih]

end JsonText

namespace Program

open JsonText

/-! ### Stored programs -/

section Loads

variable {α β γ : Type}

theorem list_inside_loads {r : Nat → Reader α} {tree : α → Tree} (h : ∀ n a, Loads (r n) (tree a) n a) (depth : Nat)
    (as : List α) : Loads (list (inside depth r)) (.list (as.map tree)) depth as := by
  cases depth with
  | zero => exact list_none_loads _ _
  | succ depth => exact list_loads (h depth) as

theorem pair_loads {finish : Option α × Option β → Option γ} (hname : name ≠ name') (h : Loads first t limit a)
    (h' : Loads second t' limit b) (hfinish : finish (some a, some b) = some c) :
    Loads (record (some [firstField name first, secondField name' second]) (none, none) finish)
      (.record [(name, t), (name', t')]) (limit + 1) c := by
  have hfirst : Loads ((firstField name first : Member (Option α × Option β)).read (none, none)) t limit (some a, none) :=
    h.map fun a => (some a, none)
  have hsecond : Loads ((secondField name' second).read (some a, none)) t' limit (some a, some b) :=
    h'.map fun b => (some a, some b)
  have hfind : [firstField name first, secondField name' second].find? (·.name == name') =
      some (secondField name' second) := by
    simp [firstField, secondField, hname]
  exact record_loads (.cons (List.find?_cons_of_pos (beq_self_eq_true name)) rfl hfirst
    (.cons hfind rfl hsecond (.nil _))) hfinish

end Loads

theorem toTrees_eq_map (as : List Argument) : Argument.toTrees as = as.map Argument.toTree := by
  induction as with
  | nil => rfl
  | cons a as ih => rw [Argument.toTrees, ih, List.map_cons]

theorem readBlock_loads (depth : Nat) : (∀ b, Loads (readBlock depth) b.toTree depth b) ∧
    (∀ as, Loads (readArguments depth) (.list (as.map Argument.toTree)) depth as) ∧
      ∀ a, Loads (readArgument depth) a.toTree depth a := by
  induction depth with
  | zero =>
    refine ⟨fun b => ?_, fun as => list_none_loads _ _, fun a => ?_⟩
    · obtain ⟨id, args⟩ := b
      rw [readBlock, Block.toTree]
      exact record_none_loads _ _
    · cases a <;> exact tagged_none_loads _ _
  | succ depth ih =>
    obtain ⟨hblock, hargs, harg⟩ := ih
    refine ⟨fun b => ?_, fun as => list_loads harg as, fun a => ?_⟩
    · obtain ⟨id, args⟩ := b
      rw [Block.toTree, toTrees_eq_map]
      exact pair_loads (by decide) (string_loads id depth) (hargs args) rfl
    · cases a with
      | text s | constant s => exact tagged_loads rfl ((string_loads s depth).map _)
      | block b => exact tagged_loads rfl ((hblock b).map _)
      | blockdef id => exact tagged_loads rfl ((string_loads id depth).map _)
      | color s => exact tagged_loads rfl ((string_loads s depth).map _)

theorem readChain_loads (depth : Nat) (c : Chain) : Loads (readChain depth) c.toTree depth c := by
  cases depth with
  | zero => exact record_none_loads _ _
  | succ depth =>
    exact record_loads (.cons rfl rfl ((list_inside_loads (fun n => (readBlock_loads n).1) depth c.blocks).map _) (.nil _)) rfl

theorem readInput_loads (depth : Nat) (i : Input) : Loads (readInput depth) i.toTree depth i := by
  cases depth with
  | zero => cases i <;> exact tagged_none_loads _ _
  | succ depth =>
    cases i with
    | label s => exact tagged_loads rfl ((string_loads s depth).map _)
    | parameter id => exact tagged_loads rfl ((string_loads id depth).map _)

theorem readBlockdef_loads (depth : Nat) (d : Blockdef) : Loads (readBlockdef depth) d.toTree depth d := by
  cases depth with
  | zero => exact record_none_loads _ _
  | succ depth =>
    exact pair_loads (by decide) (string_loads d.id depth) (list_inside_loads readInput_loads depth d.inputs) rfl

theorem readProgram_loads (depth : Nat) (p : Program) : Loads (readProgram depth) p.toTree depth p := by
  cases depth with
  | zero => exact record_none_loads _ _
  | succ depth =>
    exact pair_loads (by decide) (list_inside_loads readChain_loads depth p.chains)
      (list_inside_loads readBlockdef_loads depth p.blockdefs) rfl

theorem ofJson_toJson (p : Program) (limit : Nat) :
    ofJson p.toJson limit = if p.toTree.depth ≤ limit then .ok p else .error .malformed := by
  have hread := readProgram_loads limit p [] 0 [] blank_nil
  rw [List.nil_append, List.append_nil] at hread
  rw [ofJson, toJson, String.toList_ofList]
  split
  · next hfits =>
    rw [if_pos hfits] at hread
    simp [whole, hread]
  · next hfits =>
    rw [if_neg hfits] at hread
    simp [whole, hread]

/-! ### Programs that were read -/

section Gives

variable {α β γ σ : Type} {P : α → Prop} {Q : β → Prop} {R : γ → Prop}

theorem record_none_gives {finish : σ → Option α} : Gives (record none empty finish) P := by
  refine .after fun c => ?_
  split
  · exact .refuse
  · exact .refuse
  · exact .refuse
  · exact .refuseValue

theorem list_inside_gives {r : Nat → Reader α} (h : ∀ n, depth = n + 1 → Gives (r n) P) :
    Gives (list (inside depth r)) (∀ a ∈ ·, P a) := by
  refine list_gives fun item hitem => ?_
  cases depth with
  | zero => cases hitem
  | succ n =>
    cases hitem
    exact h n rfl

theorem pair_gives {finish : Option α × Option β → Option γ} (h : Gives first P) (h' : Gives second Q)
    (hfinish : ∀ a b, (∀ x ∈ a, P x) → (∀ y ∈ b, Q y) → ∀ c ∈ finish (a, b), R c) :
    Gives (record (some [firstField name first, secondField name' second]) (none, none) finish) R := by
  refine record_gives (I := fun st => (∀ x ∈ st.1, P x) ∧ ∀ y ∈ st.2, Q y) ?_ ?_ ?_
  · intro fields hfields
    cases hfields
    simp only [Keeps, List.forall_mem_cons]
    refine ⟨fun st hst => h.map fun a ha => ⟨?_, hst.2⟩, fun st hst => h'.map fun b hb => ⟨hst.1, ?_⟩, List.forall_mem_nil _⟩
    · intro x hx
      cases hx
      exact ha
    · intro y hy
      cases hy
      exact hb
  · exact ⟨by simp, by simp⟩
  · exact fun st hst => hfinish st.1 st.2 hst.1 hst.2

theorem forall_mem_getD {as : Option (List α)} (h : ∀ xs ∈ as, ∀ x ∈ xs, P x) : ∀ x ∈ as.getD [], P x := by
  cases as with
  | none => exact List.forall_mem_nil _
  | some xs => exact h xs rfl

end Gives

theorem stringCase_gives {α : Type} {make : String → α} {tree : α → Tree}
    (h : ∀ s, tree (make s) = .record [(name, .text s)]) :
    Gives (do return make (← string)) fun a => (tree a).depth ≤ n + 1 := by
  refine .after fun s => .pure ?_
  simp [h, Tree.depth, Tree.depthFields]

theorem readArgument_gives (h : Gives (readBlock n) fun b => b.toTree.depth ≤ n) :
    Gives (readArgument (n + 1)) fun a => a.toTree.depth ≤ n + 1 := by
  rw [readArgument]
  refine tagged_gives fun cs hcs => ?_
  cases hcs
  have hblock : Gives (do return Argument.block (← readBlock n)) fun a => a.toTree.depth ≤ n + 1 :=
    h.map fun b hb => by simpa [Argument.toTree, Tree.depth, Tree.depthFields] using hb
  simp only [List.forall_mem_cons]
  exact ⟨stringCase_gives fun _ => rfl, stringCase_gives fun _ => rfl, hblock, stringCase_gives fun _ => rfl,
    stringCase_gives fun _ => rfl, List.forall_mem_nil _⟩

theorem readBlock_gives (k : Nat) : Gives (readBlock (3 * k)) fun b => b.toTree.depth ≤ 3 * k := by
  induction k with
  | zero =>
    rw [readBlock]
    exact record_none_gives
  | succ k ih =>
    have hargs : Gives (readArguments (3 * k + 2)) (∀ a ∈ ·, a.toTree.depth ≤ 3 * k + 1) := by
      rw [readArguments]
      refine list_gives fun r hr => ?_
      cases hr
      exact readArgument_gives ih
    show Gives (readBlock (3 * k + 2 + 1)) fun b => b.toTree.depth ≤ 3 * k + 3
    rw [readBlock]
    refine pair_gives (P := fun _ => True) (fun _ _ _ _ => trivial) hargs fun id args _ hargs b hb => ?_
    cases id with
    | none => cases hb
    | some id =>
      cases hb
      have hdepth := Tree.depthItems_map_le.mpr (forall_mem_getD hargs)
      simp only [Block.toTree, toTrees_eq_map, Tree.depth, Tree.depthFields]
      omega

theorem readChain_gives (k : Nat) : Gives (readChain (3 * k + 2)) fun c => c.toTree.depth ≤ 3 * k + 2 := by
  have hblocks : Gives (list (inside (3 * k + 1) readBlock)) (∀ b ∈ ·, b.toTree.depth ≤ 3 * k) :=
    list_inside_gives fun n hn => by
      cases hn
      exact readBlock_gives k
  refine record_gives (I := fun st => ∀ bs ∈ st, ∀ b ∈ bs, b.toTree.depth ≤ 3 * k) ?_ (by simp) ?_
  · intro fields hfields
    cases hfields
    simp only [Keeps, List.forall_mem_cons]
    refine ⟨fun st hst => hblocks.map fun bs hbs cs hcs => ?_, List.forall_mem_nil _⟩
    cases hcs
    exact hbs
  · intro st hst c hc
    obtain ⟨bs, hbs, rfl⟩ := Option.map_eq_some_iff.mp hc
    have hdepth := Tree.depthItems_map_le.mpr (hst bs hbs)
    simp only [Chain.toTree, Tree.depth, Tree.depthFields]
    omega

theorem readInput_gives (depth : Nat) : Gives (readInput depth) fun i => i.toTree.depth ≤ 1 := by
  refine tagged_gives fun cs hcs => ?_
  cases depth with
  | zero => cases hcs
  | succ depth =>
    cases hcs
    simp only [List.forall_mem_cons]
    exact ⟨stringCase_gives fun _ => rfl, stringCase_gives fun _ => rfl, List.forall_mem_nil _⟩

theorem readBlockdef_gives (depth : Nat) : Gives (readBlockdef depth) fun d => d.toTree.depth ≤ 3 := by
  cases depth with
  | zero => exact record_none_gives
  | succ depth =>
    have hinputs : Gives (list (inside depth readInput)) (∀ i ∈ ·, i.toTree.depth ≤ 1) :=
      list_inside_gives fun n _ => readInput_gives n
    refine pair_gives (P := fun _ => True) (fun _ _ _ _ => trivial) hinputs fun id inputs _ hinputs d hd => ?_
    obtain ⟨id, -, rfl⟩ := Option.map_eq_some_iff.mp hd
    have hdepth := Tree.depthItems_map_le.mpr (forall_mem_getD hinputs)
    simp only [Blockdef.toTree, Tree.depth, Tree.depthFields]
    omega

theorem readProgram_gives (k : Nat) : Gives (readProgram (3 * k + 7)) fun p => p.toTree.depth ≤ 3 * k + 7 := by
  have hchains : Gives (list (inside (3 * k + 6) readChain)) (∀ c ∈ ·, c.toTree.depth ≤ 3 * k + 5) :=
    list_inside_gives fun n hn => by
      cases hn
      exact readChain_gives (k + 1)
  have hblockdefs : Gives (list (inside (3 * k + 6) readBlockdef)) (∀ d ∈ ·, d.toTree.depth ≤ 3) :=
    list_inside_gives fun n _ => readBlockdef_gives n
  refine pair_gives hchains hblockdefs fun chains blockdefs hchains hblockdefs p hp => ?_
  cases hp
  have hdepth := Tree.depthItems_map_le.mpr (forall_mem_getD hchains)
  have hdepth' := Tree.depthItems_map_le.mpr (forall_mem_getD hblockdefs)
  simp only [Program.toTree, Tree.depth, Tree.depthFields]
  omega

theorem depth_of_ofJson (h : ofJson text = .ok p) : p.toTree.depth ≤ nestingLimit := by
  rw [ofJson, whole] at h
  split at h
  · cases h
  · next a rest hread =>
    split at h
    · cases h
      exact readProgram_gives 40 _ _ _ hread
    · cases h

theorem nesting_toJson (p : Program) : nesting p.toJson = p.toTree.depth :=
  nesting_render p.toTree 0

/-- Saved programs load back: the stored text of a program gives the program again where it nests at most 127 lists and
records, and is malformed where it nests deeper. A program that was loaded from any text is of the first kind. -/
theorem saved_programs_load :
    (∀ p : Program, ofJson p.toJson = if nesting p.toJson ≤ 127 then .ok p else .error .malformed) ∧
      ∀ text p, ofJson text = .ok p → nesting p.toJson ≤ 127 ∧ ofJson p.toJson = .ok p := by
  have hloads : ∀ p : Program, ofJson p.toJson = if nesting p.toJson ≤ 127 then .ok p else .error .malformed := by
    intro p
    rw [nesting_toJson]
    exact ofJson_toJson p nestingLimit
  refine ⟨hloads, fun text p h => ?_⟩
  have hfits : nesting p.toJson ≤ 127 := by
    rw [nesting_toJson]
    exact depth_of_ofJson h
  exact ⟨hfits, (hloads p).trans (if_pos hfits)⟩

/-- A text with a field that is not known, fields in another order, records written as lists, a field that is left out and
escapes. -/
def looseText : String :=
  "\x7b\"x\": [\x7b\x7d], \"blockdefs\": [[\"f\"]], \"chains\": [\x7b\"blocks\": " ++
    "[\x7b\"args\": [\x7b\"text\": \"\\u0041\\n\"\x7d], \"id\": \"print\"\x7d, [\"end\"]]\x7d]\x7d"

def looseProgram : Program :=
  ⟨[⟨[.mk "print" [.text "A\n"], .mk "end" []]⟩], [⟨"f", []⟩]⟩

theorem saved_programs_load_loose : ofJson looseText = .ok looseProgram ∧ nesting looseProgram.toJson ≤ 127 ∧
      ofJson looseProgram.toJson = .ok looseProgram := by
  have hvalue : (ofJson looseText).toOption = some looseProgram := by decide +kernel
  have hread : ofJson looseText = .ok looseProgram := by
    cases hrun : ofJson looseText with
    | error e =>
      rw [hrun] at hvalue
      cases hvalue
    | ok p =>
      rw [hrun] at hvalue
      cases hvalue
      rfl
  exact ⟨hread, saved_programs_load.2 looseText looseProgram hread⟩

end Program

end Blockwork
