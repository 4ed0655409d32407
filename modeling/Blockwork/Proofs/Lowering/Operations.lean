import Blockwork.Proofs.Lowering.Emission
import Blockwork.Proofs.Typing.Operations

/-! # Casts and plain blocks

Every cast and every plain block that neither declares nor assigns nor leaves keeps the discipline when
its operands are known, and its result is known then. -/

namespace Blockwork.Flow

open Lower
open Typing

def known : Operand → List (Reg × Word)
  | .reg ty r => [(r, wordOf ty)]
  | _ => []

variable {C : Context} {pt : Point} {kinds : List (Reg × Content)}

/-! ### Words of kinds -/

def wordFor : Content → Word
  | .value ty => wordOf ty
  | _ => .plain

theorem resultWord_eq (e : Entry) : resultWord e = wordFor e.yields := by
  cases e <;> rfl

theorem wordFor_content {v : Value} (hv : v.refs = []) : wordFor v.content = .plain := by
  cases v with
  | string p | list p | any p => cases hv
  | _ => rfl

def words (kinds : List (Reg × Content)) : List (Reg × Word) :=
  kinds.map fun x => (x.1, wordFor x.2)

theorem known_eq (arg : Operand) : known arg = words (contents arg) := by
  cases arg <;> rfl

theorem known_all (argv : List Operand) : argv.flatMap known = words (argv.flatMap contents) := by
  simp only [words, List.map_flatMap, List.flatMap_congr fun arg _ => known_eq arg]

/-- Every register of some kinds is known. -/
def Held (C : Context) (pt : Point) (kinds : List (Reg × Content)) : Prop :=
  ∀ x ∈ kinds, ∃ w, (x.2 = .element ∨ w = wordFor x.2) ∧ pt.Knows C.rules x.1 w

theorem Held.append (h : Held C pt kinds) (h' : Held C pt kinds') : Held C pt (kinds ++ kinds') :=
  List.forall_mem_append.mpr ⟨h, h'⟩

theorem Held.sub (h : Held C pt kinds) (hsub : pt.Sub pt') : Held C pt' kinds := fun x hx => by
  obtain ⟨w, hw, hk⟩ := h x hx
  exact ⟨w, hw, hsub.knows hk⟩

theorem Held.one (hw : c = .element ∨ w = wordFor c) (hk : pt.KnowsAll C.rules [(r, w)]) : Held C pt [(r, c)] :=
  List.forall_mem_singleton.mpr ⟨w, hw, hk _ List.mem_cons_self⟩

theorem Held.covers (h : ∀ r ∈ args, ∃ w, pt.Knows C.rules r w) : ∃ ks, pt.KnowsAll C.rules ks ∧ Covers ks args := by
  induction args with
  | nil => exact ⟨[], nofun, nofun⟩
  | cons r args ih =>
    obtain ⟨⟨w, hw⟩, hrest⟩ := List.forall_mem_cons.mp h
    obtain ⟨ks, hks, hcovers⟩ := ih hrest
    refine ⟨(r, w) :: ks, List.forall_mem_cons.mpr ⟨hw, hks⟩, List.forall_mem_cons.mpr ⟨⟨w, List.mem_cons_self⟩, ?_⟩⟩
    intro x hx
    obtain ⟨v, hv⟩ := hcovers x hx
    exact ⟨v, List.mem_cons_of_mem _ hv⟩

/-! ### Plain blocks keep the discipline -/

theorem Emits.ofQuiet {α : Type} {x : Lower α} {gives : α → List (Reg × Word)} (h : Emits C false ks x gives) :
    Emits C loud ks x gives := by
  cases loud with
  | false => exact h
  | true => exact h.louder

theorem goes_of_parallel {P : Location → Location → Prop} {α : Type} {pairs : Pairs} {x y : Lower α} {K : Shape α}
    (h : Parallel P C.rules.steady loud pairs x y K) :
    ∀ {kinds s pt a s'}, pairs = same kinds → x C.env s = .ok a s' → Fit C s pt → Held C pt kinds →
      ∃ pt', Goes C loud s pt s' pt' ∧ Held C pt' (K.contents a) := by
  induction h with
  | pure hab =>
    rintro kinds s pt a s' rfl hx hfit hheld
    obtain ⟨rfl, rfl⟩ := pure_ok hx
    refine ⟨pt, .refl hfit, fun z hz => hheld z ?_⟩
    obtain ⟨r, hr⟩ := Shape.held _ hab z hz
    exact (mem_same.mp hr).2
  | bind _ _ ihx ihf =>
    rintro kinds s pt b s' rfl hx hfit hheld
    obtain ⟨a, s₁, hxa, hfa⟩ := bind_ok hx
    obtain ⟨pt₁, hgo, hgives⟩ := ihx rfl hxa hfit hheld
    obtain ⟨pt₂, hgo', hlast⟩ := ihf _ a a (List.subset_append_right _ _)
      (Shape.refl _ (List.subset_append_left _ _)) (same_append _ _).symm hfa hgo.fit
      (hgives.append (hheld.sub hgo.sub))
    exact ⟨pt₂, hgo.trans hgo', hlast⟩
  | fail => exact fun _ hx => (fail_ok hx).elim
  | constant v hv =>
    intro kinds s pt a s' _ hx hfit _
    obtain ⟨pt', hgo, hk⟩ := (constant_emits hv).ofQuiet s pt a s' hx hfit (List.forall_mem_nil _)
    exact ⟨pt', hgo, .one (.inr (wordFor_content hv).symm) hk⟩
  | @unary _ op r _ _ _ _ =>
    intro kinds s pt a s' _ hx hfit _
    obtain ⟨pt', hgo, hk⟩ := (unary_emits op r).ofQuiet s pt a s' hx hfit (List.forall_mem_nil _)
    exact ⟨pt', hgo, .one (.inr (by cases op <;> rfl)) hk⟩
  | @binary _ op l r _ _ _ _ _ _ _ =>
    intro kinds s pt a s' _ hx hfit _
    obtain ⟨pt', hgo, hk⟩ := (binary_emits op l r).ofQuiet s pt a s' hx hfit (List.forall_mem_nil _)
    exact ⟨pt', hgo, .one (.inr (by cases op <;> rfl)) hk⟩
  | element hr =>
    rintro kinds s pt a s' rfl hx hfit hheld
    obtain ⟨w, -, hw⟩ := hheld _ (mem_same.mp hr).2
    obtain ⟨pt', hgo, hk⟩ := (elementOf_emits List.mem_cons_self).ofQuiet s pt a s' hx hfit
      (List.forall_mem_singleton.mpr hw)
    exact ⟨pt', hgo, .one (.inl rfl) hk⟩
  | call e args hargs he =>
    rintro kinds s pt a s' rfl hx hfit hheld
    simp only [Entry.fits, Bool.and_eq_true] at he
    obtain ⟨⟨⟨-, hordinary⟩, hchance⟩, hloud⟩ := he
    have hsteady (hs : C.rules.steady = true) : e.isChance = false := by
      simpa [hs] using hchance
    have hknown : ∀ r ∈ args.map (·.1), ∃ w, pt.Knows C.rules r w := fun r hr => by
      obtain ⟨k, hk, rfl⟩ := List.mem_map.mp hr
      obtain ⟨w, -, hw⟩ := hheld _ (mem_same.mp (hargs hk)).2
      exact ⟨w, hw⟩
    obtain ⟨ks, hks, hcovers⟩ := Held.covers hknown
    have hcall : Emits C loud ks (call e (args.map (·.1))) fun d => [(d, resultWord e)] := by
      cases loud with
      | false => exact call_emits_quiet e hordinary (by simpa using hloud) hsteady hcovers
      | true => exact call_emits e hordinary hsteady hcovers
    obtain ⟨pt', hgo, hk⟩ := hcall s pt a s' hx hfit hks
    exact ⟨pt', hgo, .one (.inr (resultWord_eq e)) hk⟩

theorem Emits.of {α : Type} {x : Lower α} {K : Shape α} (hK : ∀ a, ∀ z ∈ K.contents a, z.2 ≠ .element)
    (h : Parallel Anywhere C.rules.steady loud (same kinds) x x K) :
    Emits C loud (words kinds) x fun a => words (K.contents a) := by
  intro s pt a s' hx hfit hk
  have hheld : Held C pt kinds := fun z hz => ⟨_, .inr rfl, hk _ (List.mem_map_of_mem hz)⟩
  obtain ⟨pt', hgo, hgives⟩ := goes_of_parallel h rfl hx hfit hheld
  refine ⟨pt', hgo, fun y hy => ?_⟩
  obtain ⟨z, hz, rfl⟩ := List.mem_map.mp hy
  obtain ⟨w, hw, hknown⟩ := hgives z hz
  obtain rfl := hw.resolve_left (hK a z hz)
  exact hknown

theorem Emits.value {x : Lower Reg} {ty : ValueType}
    (h : Parallel Anywhere C.rules.steady loud (same kinds) x x (.reg (.value ty))) :
    Emits C loud (words kinds) x fun r => [(r, wordOf ty)] :=
  .of (fun _ => List.forall_mem_singleton.mpr nofun) h

theorem Emits.operand {x : Lower Operand}
    (h : Parallel Anywhere C.rules.steady loud (same kinds) x x .operand) : Emits C loud (words kinds) x known := by
  rw [funext known_eq]
  refine .of (fun a => ?_) h
  cases a with
  | reg => exact List.forall_mem_singleton.mpr nofun
  | _ => exact List.forall_mem_nil _

theorem toInteger_emits (arg : Operand) (loc : Location) :
    Emits C false (known arg) (toInteger arg loc) fun r => [(r, .plain)] := by
  rw [known_eq]
  exact .value (Typing.toInteger_parallel (.refl (List.Subset.refl _)) trivial)

theorem toBool_emits (arg : Operand) (loc : Location) :
    Emits C false (known arg) (toBool arg loc) fun r => [(r, .plain)] := by
  rw [known_eq]
  exact .value (Typing.toBool_parallel (.refl (List.Subset.refl _)) trivial)

theorem mapM_toAny_emits (argv : List Operand) (loc : Location) :
    Emits C true (argv.flatMap known) (argv.mapM (toAny · loc)) fun rs => rs.map (·, Word.heap) := by
  have hwords : (fun rs : List Reg => rs.map (·, Word.heap)) =
      fun rs => words ((Shape.regs (.value .any)).contents rs) := by
    funext rs
    simp only [words, Shape.regs, List.map_map]
    rfl
  rw [known_all, hwords]
  exact .of (fun _ => List.forall_mem_map.mpr fun _ _ => nofun)
    (.mapM (Typing.Like.refls (List.Subset.refl _)) fun _ _ _ hab => Typing.toAny_parallel hab trivial)

end Blockwork.Flow
