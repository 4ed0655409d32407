import Blockwork.Proofs.Tracing.Marks
import Blockwork.Proofs.Typing.Operations

/-! # Code and its variables
`Scoped` says of code which registers have been written and which variables are declared before and after
it: every operand is there at a kind the instruction accepts, and every access to a variable is one to the
place where this variable lives. -/

namespace Blockwork.Tracing


open Typing Instr

def valuesOf (ms : List Mark) : List (Nat × Reg × Content) :=
  ms.flatMap fun
    | .noted n => (contents n.value).map fun x => (n.stop, x)
    | _ => []

/-- What is said of the code of a function. -/
structure World where
  ctx : Setting
  kinds : List Content
  accesses : List (Nat × Access)
  values : List (Nat × Reg × Content)
  cells : List Stored
  slots : Nat

abbrev World.main (W : World) : Bool :=
  W.ctx.main

/-- What is known at a point: registers that have been written; the variables in the first slots; and, in the
main function, how many cells have been declared. -/
structure Facts where
  written : List Reg
  locals : List Stored
  cells : Nat

namespace Facts

def write (F : Facts) (i : Instr) : Facts :=
  { F with written := i.dst?.toList ++ F.written }

structure Le (F G : Facts) : Prop where
  written : F.written ⊆ G.written
  locals : F.locals <+: G.locals
  cells : F.cells ≤ G.cells

theorem Le.refl (F : Facts) : F.Le F :=
  ⟨List.Subset.refl _, List.prefix_refl _, Nat.le_refl _⟩

theorem Le.trans {F G H : Facts} (h : F.Le G) (h' : G.Le H) : F.Le H :=
  ⟨List.Subset.trans h.written h'.written, h.locals.trans h'.locals, Nat.le_trans h.cells h'.cells⟩

end Facts

/-- A variable lives at a place. -/
inductive Located (W : World) (F : Facts) : Place → Stored → Prop where
  | slot : F.locals[i]? = some x → Located W F (.slot i) x
  | cell {i : Nat} {x : Stored} : W.cells[i]? = some x → (W.main = true → i < F.cells) →
      Located W F (.global i) x

inductive Leads (W : World) (k : Nat) (F : Facts) : Instr → Facts → Prop where
  | plain {i : Instr} : Leaf W.ctx W.kinds F.written i → W.accesses.lookup k = none →
      Leads W k F i (F.write i)
  | reads {d : Reg} {pl : Place} {x : Stored} : W.accesses.lookup k = some (.reads x d) →
      Located W F pl x → W.kinds[d]? = some (.value x.ty) →
      Leads W k F (.load d x.ty pl) (F.write (.load d x.ty pl))
  | assigns : W.accesses.lookup k = some (.assigns x r) → Located W F pl x → Has W.kinds F.written r (.value
      x.ty) → Leads W k F (.store pl r) F
  | declares : W.accesses.lookup k = some (.declares x r) → x.isGlobal = false → x ∉ F.locals → F.locals.length
      < W.slots → Has W.kinds F.written r (.value x.ty) → Leads W k F (.store (.slot F.locals.length) r) { F
      with locals := F.locals ++ [x] }
  | declaresCell : W.accesses.lookup k = some (.declares x r) → W.main = true → W.cells[F.cells]? = some x → Has
      W.kinds F.written r (.value x.ty) → Leads W k F (.store (.global F.cells) r) { F with cells := F.cells + 1
      }
  | closes : W.accesses.lookup k = some (.closes xs) → F.locals = kept ++ gone → (∀ x ∈ kept, x ∉ xs) → Leads W
      k F .poll { F with locals := kept }

def Due (W : World) (k : Nat) (F : Facts) : Prop :=
  ∀ e ∈ W.values, e.1 = k → e.2.1 ∈ F.written

/-- Code that starts with the instruction with number `k`, and what is known before and after it. -/
inductive Scoped (W : World) : Nat → Facts → List Instr → Facts → Prop where
  | nil : Scoped W k F [] F
  | leaf {k : Nat} {F F₁ F' : Facts} {i : Instr} {is : List Instr} : Due W k F → Leads W k F i F₁ →
      Scoped W (k + 1) F₁ is F' → Scoped W k F (i :: is) F'
  | rooted {k : Nat} {F F₁ F' : Facts} {body is : List Instr} : Scoped W k F body F₁ →
      Scoped W (k + widthIn body) F₁ is F' → Scoped W k F (.rooted body :: is) F'
  | ifThen {k : Nat} {F F₁ F' : Facts} {c : Reg} {body is : List Instr} :
      Has W.kinds F.written c (.value .bool) → Scoped W k F body F₁ → F.Le F₁ →
      Scoped W (k + widthIn body) F is F' → Scoped W k F (.ifThen c body :: is) F'
  | countLoop {k : Nat} {F F₁ F' : Facts} {c : Reg} {body is : List Instr} :
      Has W.kinds F.written c (.value .integer) → Scoped W k F body F₁ → F.Le F₁ →
      Scoped W (k + widthIn body) F is F' → Scoped W k F (.countLoop c body :: is) F'
  | whileLoop {k : Nat} {F F₁ F₂ F' : Facts} {c : Reg} {test body is : List Instr} :
      Scoped W k F test F₁ → F.Le F₁ → Has W.kinds F₁.written c (.value .bool) →
      Scoped W (k + widthIn test) F₁ body F₂ → F₁.Le F₂ →
      Scoped W (k + widthIn test + widthIn body) F₁ is F' → Scoped W k F (.whileLoop test c body :: is) F'
  | foreverLoop {k : Nat} {F F₁ F' : Facts} {body is : List Instr} : Scoped W k F body F₁ → F.Le F₁ →
      Scoped W (k + widthIn body) F is F' → Scoped W k F (.foreverLoop body :: is) F'

section

variable {W W' : World} {F F' : Facts} {k : Nat}

theorem Leads.isLeaf (h : Leads W k F i F') : i.isLeaf = true := by
  cases h with
  | plain hleaf _ => exact hleaf.isLeaf
  | _ => rfl

theorem Scoped.append (h : Scoped W k F is F') (h' : Scoped W (k + widthIn is) F' js F'') :
    Scoped W k F (is ++ js) F'' := by
  induction h with
  | nil => exact h'
  | @leaf k F F₁ F' i is hdue hleads _ ih =>
    refine .leaf hdue hleads (ih ?_)
    rwa [widthIn, width_of_isLeaf hleads.isLeaf, ← Nat.add_assoc] at h'
  | rooted hbody _ _ ih =>
    refine .rooted hbody (ih ?_)
    rwa [widthIn, width, ← Nat.add_assoc] at h'
  | ifThen hc hbody hle _ _ ih =>
    refine .ifThen hc hbody hle (ih ?_)
    rwa [widthIn, width, ← Nat.add_assoc] at h'
  | countLoop hc hbody hle _ _ ih =>
    refine .countLoop hc hbody hle (ih ?_)
    rwa [widthIn, width, ← Nat.add_assoc] at h'
  | whileLoop htest hle hc hbody hle' _ _ _ ih =>
    refine .whileLoop htest hle hc hbody hle' (ih ?_)
    rwa [widthIn, width, ← Nat.add_assoc, ← Nat.add_assoc] at h'
  | foreverLoop hbody hle _ _ ih =>
    refine .foreverLoop hbody hle (ih ?_)
    rwa [widthIn, width, ← Nat.add_assoc] at h'

theorem Leads.keeps (h : Leads W k F i F') : F.written ⊆ F'.written ∧ F.cells ≤ F'.cells := by
  cases h with
  | plain | reads => exact ⟨List.subset_append_right _ _, Nat.le_refl _⟩
  | declaresCell _ _ _ _ => exact ⟨List.Subset.refl _, Nat.le_succ _⟩
  | _ => exact ⟨List.Subset.refl _, Nat.le_refl _⟩

theorem Scoped.keeps (h : Scoped W k F is F') : F.written ⊆ F'.written ∧ F.cells ≤ F'.cells := by
  induction h with
  | nil => exact ⟨List.Subset.refl _, Nat.le_refl _⟩
  | leaf _ hleads _ ih =>
    exact ⟨List.Subset.trans hleads.keeps.1 ih.1, Nat.le_trans hleads.keeps.2 ih.2⟩
  | rooted _ _ ihbody ih => exact ⟨List.Subset.trans ihbody.1 ih.1, Nat.le_trans ihbody.2 ih.2⟩
  | ifThen _ _ _ _ _ ih | countLoop _ _ _ _ _ ih => exact ih
  | whileLoop _ hle _ _ _ _ _ _ ih =>
    exact ⟨List.Subset.trans hle.written ih.1, Nat.le_trans hle.cells ih.2⟩
  | foreverLoop _ _ _ _ ih => exact ih

/-! ### More code -/

structure World.Grows (n : Nat) (W W' : World) : Prop where
  ctx : W'.ctx = W.ctx
  kinds : W.kinds <+: W'.kinds
  accesses : ∃ more, W'.accesses = W.accesses ++ more ∧ ∀ e ∈ more, n ≤ e.1
  values : ∃ more, W'.values = W.values ++ more ∧ ∀ e ∈ more, n ≤ e.1
  cells : W.cells <+: W'.cells
  slots : W.slots ≤ W'.slots

theorem lookup_append_left {α : Type} {l more : List (Nat × α)} (hk : k < n) (hmore : ∀ e ∈ more, n ≤ e.1) :
    (l ++ more).lookup k = l.lookup k := by
  have hnone : more.lookup k = none := by
    rw [List.lookup_eq_none_iff]
    intro e he
    have hle := hmore e he
    simp only [bne_iff_ne, ne_eq]
    omega
  rw [List.lookup_append, hnone, Option.or_none]

theorem World.Grows.refl (n : Nat) (W : World) : W.Grows n W where
  ctx := rfl
  kinds := List.prefix_refl _
  accesses := ⟨[], (List.append_nil _).symm, nofun⟩
  values := ⟨[], (List.append_nil _).symm, nofun⟩
  cells := List.prefix_refl _
  slots := Nat.le_refl _

theorem World.Grows.trans (h : W.Grows n W') (h' : W'.Grows n' W'') (hn : n ≤ n') : W.Grows n W'' := by
  obtain ⟨as, has, hasn⟩ := h.accesses
  obtain ⟨as', has', hasn'⟩ := h'.accesses
  obtain ⟨vs, hvs, hvsn⟩ := h.values
  obtain ⟨vs', hvs', hvsn'⟩ := h'.values
  refine ⟨h'.ctx.trans h.ctx, h.kinds.trans h'.kinds, ⟨as ++ as', ?_, ?_⟩,
    ⟨vs ++ vs', ?_, ?_⟩, h.cells.trans h'.cells, Nat.le_trans h.slots h'.slots⟩
  · rw [has', has, List.append_assoc]
  · intro e he
    rcases List.mem_append.mp he with he | he
    · exact hasn e he
    · exact Nat.le_trans hn (hasn' e he)
  · rw [hvs', hvs, List.append_assoc]
  · intro e he
    rcases List.mem_append.mp he with he | he
    · exact hvsn e he
    · exact Nat.le_trans hn (hvsn' e he)

namespace World.Grows

variable {n : Nat} (h : W.Grows n W')

include h

theorem main : W'.main = W.main :=
  congrArg Setting.main h.ctx

theorem lookup (hk : k < n) : W'.accesses.lookup k = W.accesses.lookup k := by
  obtain ⟨more, hmore, hn⟩ := h.accesses
  rw [hmore, lookup_append_left hk hn]

theorem has (hr : Has W.kinds F.written r c) : Has W'.kinds F.written r c :=
  hr.mono h.kinds (List.Subset.refl _)

theorem due (hk : k < n) (hdue : Due W k F) : Due W' k F := by
  intro e he hek
  obtain ⟨more, hmore, hn⟩ := h.values
  rw [hmore] at he
  rcases List.mem_append.mp he with he | he
  · exact hdue e he hek
  · have hle := hn e he
    omega

theorem located (hx : Located W F pl x) : Located W' F pl x := by
  cases hx with
  | slot hi => exact .slot hi
  | cell hi hmain =>
    exact .cell (getElem?_mono h.cells hi) (fun hm => hmain (h.main.symm.trans hm))

theorem leads (hk : k < n) (hi : Leads W k F i F') : Leads W' k F i F' := by
  have hsame := h.lookup hk
  cases hi with
  | plain hleaf hnone =>
    refine .plain ?_ (hsame.trans hnone)
    rw [h.ctx]
    exact hleaf.mono h.kinds (List.Subset.refl _)
  | reads hx hpl hd => exact .reads (hsame.trans hx) (h.located hpl) (getElem?_mono h.kinds hd)
  | assigns hx hpl hr => exact .assigns (hsame.trans hx) (h.located hpl) (h.has hr)
  | declares hx hlocal hnew hroom hr =>
    exact .declares (hsame.trans hx) hlocal hnew (Nat.lt_of_lt_of_le hroom h.slots) (h.has hr)
  | declaresCell hx hmain hcell hr =>
    exact .declaresCell (hsame.trans hx) (h.main.trans hmain) (getElem?_mono h.cells hcell) (h.has hr)
  | closes hxs hlocals hkept => exact .closes (hsame.trans hxs) hlocals hkept

theorem ofCode (his : Scoped W k F is F') (hn : k + widthIn is ≤ n) : Scoped W' k F is F' := by
  induction his with
  | nil => exact .nil
  | leaf hdue hleads _ ih =>
    rw [widthIn, width_of_isLeaf hleads.isLeaf] at hn
    exact .leaf (h.due (by omega) hdue) (h.leads (by omega) hleads) (ih (by omega))
  | rooted _ _ ihbody ih =>
    rw [widthIn, width] at hn
    exact .rooted (ihbody (by omega)) (ih (by omega))
  | ifThen hc _ hle _ ihbody ih =>
    rw [widthIn, width] at hn
    exact .ifThen (h.has hc) (ihbody (by omega)) hle (ih (by omega))
  | countLoop hc _ hle _ ihbody ih =>
    rw [widthIn, width] at hn
    exact .countLoop (h.has hc) (ihbody (by omega)) hle (ih (by omega))
  | whileLoop _ hle hc _ hle' _ ihtest ihbody ih =>
    rw [widthIn, width] at hn
    exact .whileLoop (ihtest (by omega)) hle (h.has hc) (ihbody (by omega)) hle' (ih (by omega))
  | foreverLoop _ hle _ ihbody ih =>
    rw [widthIn, width] at hn
    exact .foreverLoop (ihbody (by omega)) hle (ih (by omega))

end World.Grows

structure Numbered (l : List (Nat × Access)) (n : Nat) : Prop where
  below : ∀ e ∈ l, e.1 < n
  keys : (l.map Prod.fst).Nodup

theorem Numbered.nil (n : Nat) : Numbered [] n :=
  ⟨List.forall_mem_nil _, List.nodup_nil⟩

theorem Numbered.mono (h : Numbered l n) (hn : n ≤ n') : Numbered l n' :=
  ⟨fun e he => Nat.lt_of_lt_of_le (h.below e he) hn, h.keys⟩

theorem Numbered.snoc (h : Numbered l n) (hn : n < n') : Numbered (l ++ [(n, a)]) n' := by
  refine ⟨fun e he => ?_, ?_⟩
  · rcases List.mem_append.mp he with he | he
    · exact Nat.lt_trans (h.below e he) hn
    · obtain rfl := List.mem_singleton.mp he
      exact hn
  · rw [List.map_append, List.nodup_append]
    refine ⟨h.keys, by simp, fun i hi j hj => ?_⟩
    obtain ⟨e, he, rfl⟩ := List.mem_map.mp hi
    obtain rfl := List.mem_singleton.mp hj
    exact Nat.ne_of_lt (h.below e he)

theorem Scoped.of_line (h : Line W.ctx W.kinds D is D') (hdue : Due W k F) (hF : F.written = D)
    (haccesses : ∀ e ∈ W.accesses, e.1 < k) (hvalues : ∀ e ∈ W.values, e.1 ≤ k) :
    Scoped W k F is { F with written := D' } := by
  induction h generalizing k F with
  | nil =>
    subst hF
    exact .nil
  | @cons D D' i is hleaf _ ih =>
    subst hF
    have hnone : W.accesses.lookup k = none := by
      rw [List.lookup_eq_none_iff]
      intro e he
      have hlt := haccesses e he
      simp only [bne_iff_ne, ne_eq]
      omega
    refine .leaf hdue (.plain hleaf hnone) (ih ?_ rfl ?_ ?_)
    · intro e he hek
      have hle := hvalues e he
      omega
    · intro e he
      have hlt := haccesses e he
      omega
    · intro e he
      have hle := hvalues e he
      omega

end

end Blockwork.Tracing
