import Blockwork.Proofs.Laying

/-! # Code that drops its temporaries
Temporaries pile up in a root frame until it is flushed or closed. -/

namespace Blockwork

open Instr

inductive Litter where
  | still
  | clean
  | dirty
  deriving DecidableEq

def Litter.of (dirty : Bool) : Litter :=
  if dirty then .dirty else .clean

theorem Litter.of_ne_still (dirty : Bool) : Litter.of dirty ≠ .still := by
  cases dirty <;> nofun

/-- Code that drops its temporaries, from one mark to another. -/
inductive Tidy : Bool → Litter → List Instr → Litter → Prop
  | nil : Tidy d m [] m
  | quiet : i.isQuiet = true → Tidy d m is e → Tidy d m (i :: is) e
  | soil {d : Bool} {m e : Litter} {i : Instr} {is : List Instr} : m ≠ .still → i.soils = true → Tidy d .dirty is e →
      Tidy d m (i :: is) e
  | flush : m ≠ .still → Tidy d .clean is e → Tidy d m (.entry r .flush [] :: is) e
  | register {m e : Litter} {r x : Reg} {is : List Instr} : m ≠ .still → Tidy true m is e →
      Tidy true m (.entry r .addRoot [x] :: is) e
  | rooted {d : Bool} {m e e' : Litter} {body is : List Instr} : Tidy true .clean body e' → Tidy d m is e →
      Tidy d m (.rooted body :: is) e
  | ifThen {d : Bool} {m e : Litter} {cond : Reg} {body is : List Instr} : Tidy false .still body .still → Tidy d m is e →
      Tidy d m (.ifThen cond body :: is) e
  | countLoop {d : Bool} {m e : Litter} {count : Reg} {body is : List Instr} : Tidy false .still body .still →
      Tidy d m is e → Tidy d m (.countLoop count body :: is) e
  | foreverLoop {d : Bool} {m e : Litter} {body is : List Instr} : Tidy false .still body .still → Tidy d m is e →
      Tidy d m (.foreverLoop body :: is) e
  | whileCalm {cond : Reg} : Tidy false .still test .still →
      Tidy false .still body .still → Tidy d m is e → Tidy d m (.whileLoop test cond body :: is) e
  | whileSwept {cond : Reg} : Tidy false .clean test q →
      Tidy false q body .clean → Tidy d q is e → Tidy d .clean (.whileLoop test cond body :: is) e
  | leave : Instr.Exits is → Tidy d m (.entry r .rootRestore [] :: is) e

theorem Instr.Exits.append (h : Exits is) (js : List Instr) : Exits (is ++ js) := by
  induction h with
  | ret => exact .ret
  | constant _ ih => exact .constant ih
  | entry _ ih => exact .entry ih

mutual

theorem Instr.usesFrame_trim (i : Instr) : usesFrameIn i.trim = i.usesFrame := by
  cases i with
  | rooted body =>
    rw [trim]
    split
    case isTrue => rfl
    case isFalse hidle => exact (usesFrameIn_trimAll body).trans (Bool.eq_false_iff.mpr hidle)
  | ifThen _ body | countLoop _ body | foreverLoop body =>
    rw [trim, usesFrameIn_singleton, usesFrame, usesFrame, usesFrameIn_trimAll body]
  | whileLoop test _ body =>
    rw [trim, usesFrameIn_singleton, usesFrame, usesFrame, usesFrameIn_trimAll test,
      usesFrameIn_trimAll body]
  | _ => exact Bool.or_false _

theorem Instr.usesFrameIn_trimAll (is : List Instr) : usesFrameIn (trimAll is) = usesFrameIn is := by
  cases is with
  | nil => rfl
  | cons i is =>
    rw [trimAll, usesFrameIn_append, usesFrame_trim i, usesFrameIn_trimAll is, usesFrameIn]

end

namespace Tidy


theorem append (h : Tidy d m is e) (h' : Tidy d e js e') : Tidy d m (is ++ js) e' := by
  induction h with
  | nil => exact h'
  | quiet hi _ ih => exact .quiet hi (ih h')
  | soil hm hi _ ih => exact .soil hm hi (ih h')
  | flush hm _ ih => exact .flush hm (ih h')
  | register hm _ ih => exact .register hm (ih h')
  | rooted hbody _ _ ih => exact .rooted hbody (ih h')
  | ifThen hbody _ _ ih => exact .ifThen hbody (ih h')
  | countLoop hbody _ _ ih => exact .countLoop hbody (ih h')
  | foreverLoop hbody _ _ ih => exact .foreverLoop hbody (ih h')
  | whileCalm htest hbody _ _ _ ih => exact .whileCalm htest hbody (ih h')
  | whileSwept htest hbody _ _ _ ih => exact .whileSwept htest hbody (ih h')
  | leave hexits => exact .leave (hexits.append js)

theorem of_quiet (h : ∀ i ∈ is, i.isQuiet = true) : Tidy d m is m := by
  induction is with
  | nil => exact .nil
  | cons i is ih => exact .quiet (h i List.mem_cons_self) (ih fun j hj => h j (List.mem_cons_of_mem _ hj))

theorem of_idle (h : Tidy d m is e) (hidle : usesFrameIn is = false) : Tidy d' m' is m' := by
  induction h generalizing d' m' with
  | nil => exact .nil
  | quiet hi _ ih =>
    exact .quiet hi (ih (Bool.or_eq_false_iff.mp hidle).2)
  | soil _ hi => simp [usesFrameIn, usesFrame_of_soils hi] at hidle
  | flush | register => cases hidle
  | rooted hbody _ _ ih => exact .rooted hbody (ih (Bool.or_eq_false_iff.mp hidle).2)
  | ifThen hbody _ _ ih => exact .ifThen hbody (ih (Bool.or_eq_false_iff.mp hidle).2)
  | countLoop hbody _ _ ih => exact .countLoop hbody (ih (Bool.or_eq_false_iff.mp hidle).2)
  | foreverLoop hbody _ _ ih => exact .foreverLoop hbody (ih (Bool.or_eq_false_iff.mp hidle).2)
  | whileCalm htest hbody _ _ _ ih => exact .whileCalm htest hbody (ih (Bool.or_eq_false_iff.mp hidle).2)
  | whileSwept _ _ _ ihtest ihbody ih =>
    obtain ⟨hloop, hrest⟩ := Bool.or_eq_false_iff.mp hidle
    obtain ⟨htest, hbody⟩ := Bool.or_eq_false_iff.mp hloop
    exact .whileCalm (ihtest htest) (ihbody hbody) (ih hrest)
  | leave hexits => exact .leave hexits

theorem trim (h : Tidy d m is e) : Tidy d m (trimAll is) e := by
  induction h with
  | nil => exact .nil
  | quiet hi _ ih =>
    rw [trimAll, trim_of_isLeaf (isLeaf_of_isQuiet hi)]
    exact .quiet hi ih
  | soil hm hi _ ih =>
    rw [trimAll, trim_of_isLeaf (isLeaf_of_soils hi)]
    exact .soil hm hi ih
  | flush hm _ ih => exact .flush hm ih
  | register hm _ ih => exact .register hm ih
  | @rooted _ _ _ _ body _ _ _ ihbody ih =>
    rw [trimAll, Instr.trim]
    split
    case isTrue => exact .rooted ihbody ih
    case isFalse hidle =>
      rw [← usesFrameIn_trimAll] at hidle
      exact (ihbody.of_idle (Bool.eq_false_iff.mpr hidle)).append ih
  | ifThen _ _ ihbody ih => exact .ifThen ihbody ih
  | countLoop _ _ ihbody ih => exact .countLoop ihbody ih
  | foreverLoop _ _ ihbody ih => exact .foreverLoop ihbody ih
  | whileCalm _ _ _ ihtest ihbody ih => exact .whileCalm ihtest ihbody ih
  | whileSwept _ _ _ ihtest ihbody ih => exact .whileSwept ihtest ihbody ih
  | leave hexits =>
    refine .leave ?_
    induction hexits with
    | ret => exact .ret
    | constant _ ih => exact .constant ih
    | entry _ ih => exact .entry ih

end Tidy

def FunctionCode.Tidy (f : FunctionCode) : Prop :=
  ∃ d is, f.code = .entry d .rootSave [] :: is ∧ Blockwork.Tidy false .still is .still

structure ProgramCode.Tidy (p : ProgramCode) : Prop where
  main : p.main.Tidy
  functions : ∀ f ∈ p.functions, f.Tidy

theorem FunctionCode.Tidy.slim {f : FunctionCode} (h : f.Tidy) (keep : Bool) : (f.slim keep).Tidy := by
  obtain ⟨d, is, hcode, htidy⟩ := h
  cases keep with
  | false => exact ⟨d, trimAll is, by rw [FunctionCode.slim, hcode]; rfl, htidy.trim⟩
  | true => exact ⟨d, is, hcode, htidy⟩

theorem ProgramCode.Tidy.slim {p : ProgramCode} (h : p.Tidy) (keep : Bool) : (p.slim keep).Tidy where
  main := h.main.slim keep
  functions := by
    intro f hf
    obtain ⟨g, hg, rfl⟩ := Array.mem_map.mp hf
    exact (h.functions g hg).slim keep

open Lower Flow

theorem Lays.laid (h : Lays loud declares x) (hrun : x env s = .ok a t) : ∃ is, t.code.toList = s.code.toList ++ is ∧
      (∀ d, (declares = true → d = true) → Tidy d (.of s.scopes.dirty) is (.of t.scopes.dirty)) ∧
      (loud = false → t.scopes.dirty = s.scopes.dirty ∧ ∀ i ∈ is, i.isQuiet = true) := by
  induction h generalizing env s t with
  | pure =>
    cases hrun
    exact ⟨[], (List.append_nil _).symm, fun _ _ => .nil, fun _ => ⟨rfl, nofun⟩⟩
  | @bind α β x f _ _ ihx ihf =>
    obtain ⟨b, u, hx, hf⟩ := bind_ok hrun
    obtain ⟨is, hcode, htidy, hquiet⟩ := ihx hx
    obtain ⟨js, hcode', htidy', hquiet'⟩ := ihf b hf
    refine ⟨is ++ js, by rw [hcode', hcode, List.append_assoc], fun d hd => (htidy d hd).append (htidy' d hd),
      fun hl => ⟨(hquiet' hl).1.trans (hquiet hl).1, fun i hi => ?_⟩⟩
    rcases List.mem_append.mp hi with hi | hi
    · exact (hquiet hl).2 i hi
    · exact (hquiet' hl).2 i hi
  | fail => cases hrun
  | read _ _ ih => exact ih env hrun
  | get _ _ ih => exact ih s hrun
  | aside hx =>
    obtain ⟨b, u, hok, hapart, -⟩ := hx env s
    rw [hok] at hrun
    cases hrun
    exact ⟨[], by rw [hapart.code, List.append_nil], fun _ _ => hapart.dirty ▸ .nil, fun _ => ⟨hapart.dirty, nofun⟩⟩
  | @emit i hi =>
    cases hrun
    exact ⟨[i], Array.toList_push, fun _ _ => .quiet hi .nil, fun _ => ⟨rfl, by simpa using hi⟩⟩
  | @soil i hl hi =>
    cases hrun
    exact ⟨[i s.nextReg], Array.toList_push, fun _ _ => .soil (Litter.of_ne_still _) (hi _) .nil,
      fun h => absurd (hl.symm.trans h) nofun⟩
  | @register r hl hdecl =>
    cases hrun
    refine ⟨[.entry s.nextReg .addRoot [r]], Array.toList_push, fun d hd => ?_, fun h => absurd (hl.symm.trans h) nofun⟩
    obtain rfl := hd hdecl
    exact .register (Litter.of_ne_still _) .nil
  | settle loc hl =>
    cases (settle_run loc env s).symm.trans hrun
    split
    · exact ⟨[.entry s.nextReg .flush []], Array.toList_push, fun _ _ => .flush (Litter.of_ne_still _) .nil,
        fun h => absurd (hl.symm.trans h) nofun⟩
    · exact ⟨[], (List.append_nil _).symm, fun _ _ => .nil, fun _ => ⟨rfl, nofun⟩⟩
  | leave value loc hl =>
    obtain ⟨-, -, r, is, hcode, hexits⟩ := (leave_exits value loc env s).ok hrun
    exact ⟨_, hcode, fun _ _ => .leave hexits, fun h => absurd (hl.symm.trans h) nofun⟩

end Blockwork
