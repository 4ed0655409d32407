import Blockwork.Proofs.Lowering.Blocks
import Blockwork.Proofs.Typing.Straight

/-! # Kinds of plain blocks

Plain blocks, calls of defined blocks and returns, all but the blocks on variables. -/

namespace Blockwork.Typing

open Lower

theorem subset_singleton (h : x ∈ known) : [x] ⊆ known :=
  List.cons_subset.mpr ⟨h, List.nil_subset _⟩

theorem subset_pair (hx : x ∈ known) (hy : y ∈ known) : [x, y] ⊆ known :=
  List.cons_subset.mpr ⟨hx, subset_singleton hy⟩

theorem usesFrame_of_ordinary {e : Entry} (h : e.ordinary = true) : e.usesFrame = e.allocates := by
  cases e with
  | flush | addRoot => cases h
  | _ => rfl

theorem Parallel.straight {P : Location → Location → Prop} {calm loud : Bool} {α : Type} {pairs : Pairs}
    {x y : Lower α} {K : Shape α} (h : Parallel P calm loud pairs x y K) :
    ∀ {known}, pairs = same known → Straight ctx loud known x K.contents := by
  induction h with
  | pure hab =>
    rintro known rfl
    refine .pure fun z hz => ?_
    obtain ⟨r, hr⟩ := Shape.held _ hab z hz
    exact (mem_same.mp hr).2
  | bind _ _ ihx ihf =>
    rintro known rfl
    refine (ihx rfl).bind fun a => ihf _ a a (List.subset_append_right _ _) ?_ (same_append _ _).symm
    exact Shape.refl _ (List.subset_append_left _ _)
  | fail => exact fun _ => .fail
  | constant v => exact fun _ => constant_straight v
  | unary hr hop =>
    rintro known rfl
    exact unary_straight (mem_same.mp hr).2 hop
  | binary hl hr hop =>
    rintro known rfl
    exact binary_straight (mem_same.mp hl).2 (mem_same.mp hr).2 hop
  | element hr =>
    rintro known rfl
    exact elementOf_straight (mem_same.mp hr).2
  | call e args hargs he =>
    rintro known rfl
    simp only [Entry.fits, Bool.and_eq_true] at he
    obtain ⟨⟨⟨haccepts, hordinary⟩, -⟩, hloud⟩ := he
    have hks : (args.map fun k => (k.1, k.2.2)) ⊆ known := fun z hz => by
      obtain ⟨k, hk, rfl⟩ := List.mem_map.mp hz
      exact (mem_same.mp (hargs hk)).2
    have hfst : args.map (·.1) = (args.map fun k => (k.1, k.2.2)).map Prod.fst := by
      simp
    have hsnd : args.map (·.2.2) = (args.map fun k => (k.1, k.2.2)).map Prod.snd := by
      simp [Function.comp_def]
    rw [hsnd] at haccepts
    rw [hfst]
    exact call_straight e _ hks haccepts (usesFrame_of_ordinary hordinary) fun hl => by
      simpa [hl, hordinary] using hloud

theorem Straight.of {α : Type} {x : Lower α} {K : Shape α} (h : Parallel Anywhere false loud (same known) x x K) :
    Straight ctx loud known x K.contents :=
  h.straight rfl

theorem toInteger_straight (arg : Operand) (loc : Location) :
    Straight ctx false (contents arg) (toInteger arg loc) fun r => [(r, .value .integer)] :=
  .of (toInteger_parallel (.refl (List.Subset.refl _)) trivial)

theorem toBool_straight (arg : Operand) (loc : Location) :
    Straight ctx false (contents arg) (toBool arg loc) fun r => [(r, .value .bool)] :=
  .of (toBool_parallel (.refl (List.Subset.refl _)) trivial)

theorem toAny_straight (arg : Operand) (loc : Location) :
    Straight ctx true (contents arg) (toAny arg loc) fun r => [(r, .value .any)] :=
  .of (toAny_parallel (.refl (List.Subset.refl _)) trivial)

theorem return_straight (value : Operand) (loc : Location) (hk : contents value ⊆ known) : Straight ctx true known
      (do emit (.ret (some (← toAny value loc))); onScopes (·.setDirty false)) fun _ => [] := by
  refine .bind ((toAny_straight value loc).weaken hk) fun r => ?_
  exact .bind (.emit rfl rfl rfl nofun fun _ _ h => .retValue (h _ List.mem_cons_self)) fun _ => .clean

theorem leave_straight (value : Operand) (loc : Location) :
    Straight ctx true (contents value) (leave value loc) fun _ => [] := by
  refine .bind (perform_straight .rootRestore [] (List.nil_subset _) rfl rfl) fun _ => ?_
  refine .ofEnv (fun _ _ => rfl) fun env henv => ?_
  cases hkind : env.kind with
  | main =>
    have hmain : ctx.main = true := by
      rw [← henv, settingOf, hkind]
      rfl
    exact .bind (.emit rfl rfl rfl nofun fun _ _ _ => .ret hmain) fun _ => .clean
  | user id =>
    cases value with
    | reg ty r =>
      cases ty with
      | string =>
        refine .bind (perform_straight .addTempRoot [(r, .value .string)] (List.Subset.refl _) rfl rfl) fun _ => ?_
        exact return_straight _ loc (List.Subset.refl _)
      | list =>
        refine .bind (perform_straight .addTempRoot [(r, .value .list)] (List.Subset.refl _) rfl rfl) fun _ => ?_
        exact return_straight _ loc (List.Subset.refl _)
      | any =>
        refine .bind (perform_straight .addTempRoot [(r, .value .any)] (List.Subset.refl _) rfl rfl) fun _ => ?_
        exact return_straight _ loc (List.Subset.refl _)
      | _ => exact return_straight _ loc (List.Subset.refl _)
    | _ => exact return_straight _ loc (List.Subset.refl _)

theorem userCall_straight (ha : ctx.arity index = some args.length) (hk : args.map (·, Content.value .any) ⊆ known) :
    Straight ctx true known (do
      onScopes .markDirty
      let dst ← fresh
      emit (.call dst index args)
      poll
      return .reg .any dst) contents := by
  have hcall : Straight ctx true known (do onScopes .markDirty; let d ← fresh; emit (.call d index args); return d)
      fun d => [(d, .value .any)] := by
    refine .writeMarked (fun _ => rfl) (fun _ => rfl) fun T D hknown => .call ha (fun r hr => ?_) (by simp)
    exact (hknown _ (hk (List.mem_map_of_mem hr))).mono (List.prefix_append _ _) (List.Subset.refl _)
  have hrest : Straight ctx true known (do
        let dst ← (do onScopes .markDirty; let d ← fresh; emit (.call d index args); return d)
        poll
        return .reg .any dst) contents :=
    .bind hcall fun _ => .bind poll_straight fun _ =>
      .pure (List.subset_append_of_subset_right _ (List.subset_append_left _ _))
  exact hrest

theorem callFunction_straight {decl : FunctionDecl} (argv : List Operand) (loc : Location)
    (hd : ctx.arity index = some decl.params.length) :
    Straight ctx true (argv.flatMap contents) (callFunction index decl argv loc) contents := by
  unfold callFunction
  split
  · exact .fail
  · split
    · exact .fail
    next hlen =>
      have hall : Straight ctx true (argv.flatMap contents) (argv.mapM (toAny · loc)) fun rs =>
          rs.map (·, .value .any) :=
        .of (.mapM (Like.refls (List.Subset.refl _)) fun _ _ _ hab => toAny_parallel hab trivial)
      refine hall.bindOf (fun _ _ _ _ => Flow.mapM_length) fun args hargs => ?_
      refine userCall_straight ?_ (List.subset_append_left _ _)
      rw [hd, hargs, Decidable.not_not.mp hlen]

theorem colorArgument_straight (text : String) (loc : Location) :
    Straight ctx true known (colorArgument text loc) contents :=
  .of (colorArgument_parallel text trivial)

theorem contents_arg (argv : List Operand) (i : Nat) : contents (argv.getD i .nothing) ⊆ argv.flatMap contents := by
  rw [List.getD_eq_getElem?_getD]
  cases harg : argv[i]? with
  | none => exact List.nil_subset _
  | some a => exact fun x hx => List.mem_flatMap.mpr ⟨a, List.mem_of_getElem? harg, hx⟩

theorem operation_straight (op : Operation) (argv : List Operand) (loc : Location) (hd : op ≠ .declare)
    (hg : op ≠ .getVariable) (hs : op ≠ .setVariable) :
    Straight ctx true (argv.flatMap contents) (operation op argv loc) contents := by
  have hplain (h : Operation.isPlain false op = true) :
      Straight ctx true (argv.flatMap contents) (operation op argv loc) contents :=
    .of (operation_parallel h (Like.refls (List.Subset.refl _)) trivial)
  cases op with
  | declare => exact absurd rfl hd
  | getVariable => exact absurd rfl hg
  | setVariable => exact absurd rfl hs
  | leave =>
    exact .bind ((leave_straight _ loc).weaken (contents_arg argv 0)) fun _ => .pure (List.nil_subset _)
  | _ => exact hplain rfl

end Blockwork.Typing
