import Blockwork.Proofs.Rooting.Balance
import Blockwork.Proofs.Sweeping.Code

/-! # Where temporaries pile up
The roots of a running function lie in regions, one for each body that is being run, as the mark of the code
says. -/

namespace Blockwork

open Machine Roots

namespace Sweeping

/-! ### Regions -/

def Flat (base : Roots) : Prop :=
  ∀ more, (base.extend more).flush = base

def Sits (base : Roots) : Litter → Roots → Prop
  | .still, r => r = base
  | .clean, r => r = base ∧ Flat base
  | .dirty, r => (∃ more, r = base.extend more) ∧ Flat base

theorem flat_openFrame (r : Roots) : Flat r.openFrame.2 := by
  intro more
  simp [openFrame, extend, flush]

theorem Flat.addNamed (h : Flat base) (i : Nat) : Flat (base.addNamed i) := fun more =>
  congrArg (Roots.addNamed · i) (h more)

theorem extend_extend (r : Roots) (new more : List Pointer) : (r.extend new).extend more = r.extend (new ++ more) := by
  simp [extend]

namespace Sits

variable {base r : Roots} {m : Litter}

theorem flat (hm : m ≠ .still) (h : Sits base m r) : Flat base := by
  cases m with
  | still => exact absurd rfl hm
  | clean | dirty => exact h.2

theorem grown (h : Sits base m r) : ∃ more, r = base.extend more := by
  cases m with
  | still => exact ⟨[], h.trans (extend_nil base).symm⟩
  | clean => exact ⟨[], h.1.trans (extend_nil base).symm⟩
  | dirty => exact h.1

theorem eq (hm : m ≠ .dirty) (h : Sits base m r) : r = base := by
  cases m with
  | still => exact h
  | clean => exact h.1
  | dirty => exact absurd rfl hm

theorem soil (hm : m ≠ .still) (h : Sits base m r) (new : List Pointer) : Sits base .dirty (r.extend new) := by
  obtain ⟨more, rfl⟩ := h.grown
  exact ⟨⟨more ++ new, extend_extend _ _ _⟩, h.flat hm⟩

theorem flush (hm : m ≠ .still) (h : Sits base m r) : Sits base .clean r.flush := by
  obtain ⟨more, rfl⟩ := h.grown
  exact ⟨h.flat hm more, h.flat hm⟩

theorem addNamed (hm : m ≠ .still) (h : Sits base m r) (i : Nat) : Sits (base.addNamed i) m (r.addNamed i) := by
  have hflat := (h.flat hm).addNamed i
  cases m with
  | still => exact absurd rfl hm
  | clean => exact ⟨congrArg (addNamed · i) h.1, hflat⟩
  | dirty =>
    obtain ⟨⟨more, rfl⟩, -⟩ := h
    exact ⟨⟨more, rfl⟩, hflat⟩

end Sits

theorem roots_onRoots (s : Session) (f : Roots → Option RootError × Roots) :
    (s.onRoots f).memory.roots = (f s.memory.roots).2 :=
  congrArg Memory.roots (s.memory_onRoots f)

theorem roots_quiet {e : Entry} (h : (e.ordinary && !e.allocates) = true) (args : List Value) (s : Session) :
    (e.run args s).2.memory.roots = s.memory.roots := by
  obtain ⟨hordinary, hsilent⟩ := Bool.and_eq_true_iff.mp h
  rw [Entry.run_eq_carry hordinary]
  exact Request.roots_carry (Entry.grows_plan (by simpa using hsilent) args s) _

theorem roots_ordinary {e : Entry} (h : e.ordinary = true) (args : List Value) (s : Session) :
    ∃ new, (e.run args s).2.memory.roots = s.memory.roots.extend new := by
  rw [Entry.run_eq_carry h]
  rcases ((e.plan args s).follows s).roots with hsame | ⟨q, hq⟩
  · exact ⟨[], hsame.trans (extend_nil _).symm⟩
  · rcases addTemp_cases s.memory.roots q with hnull | hone
    · exact ⟨[], (hq.trans hnull).trans (extend_nil _).symm⟩
    · exact ⟨[q], hq.trans hone⟩

theorem roots_addRoot (s : Session) (v : Value) : (Entry.addRoot.run [v] s).2.memory.roots = s.memory.roots ∨
    ∃ i, (Entry.addRoot.run [v] s).2.memory.roots = s.memory.roots.addNamed i := by
  cases v with
  | place i => exact .inr ⟨i, roots_onRoots s _⟩
  | _ => exact .inl rfl

theorem opened_extend (h : Opened low older r) (new : List Pointer) : Opened low older (r.extend new) := by
  obtain ⟨more, htemps⟩ := h.temps
  exact ⟨h.frames, h.marks, h.named, more ++ new.toArray, by rw [extend, htemps, Array.append_assoc]⟩

structure Turning (base : Roots) (t q : Litter) (around : Roots) (m : Litter) (test body : List Instr) : Prop where
  test : Tidy false t test q
  body : Tidy false q body t
  starts : Sits base t base
  calm : t ≠ .dirty
  leaves : ∀ r, Sits base q r → Sits around m r

/-- Continuations of code in a region, with the roots with which each body was entered. -/
inductive Stack : Bool → Roots → Litter → List Kont → List Roots → Prop
  | done : Stack d base e [] []
  | next : Sits around m base → Tidy d m rest e → Stack d around e ks snaps → Stack false base .still (.next
      rest :: ks) (base :: snaps)
  | closeRoots : Roots.Opened 0 older base → Sits around m older → Tidy d m rest e → Stack d around e ks snaps →
      Stack true base e' (.closeRoots rest :: ks) (older :: snaps)
  | countLoop {d : Bool} {base around : Roots} {m e : Litter} {left : Int64} {body rest : List Instr} {ks : List Kont}
      {snaps : List Roots} : Tidy false .still body .still → Sits around m base → Tidy d m rest e →
      Stack d around e ks snaps → Stack false base .still (.countLoop left body rest :: ks) (base :: snaps)
  | whileTest {d : Bool} {base around : Roots} {t q m e : Litter} {cond : Reg} {test body rest : List Instr}
      {ks : List Kont} {snaps : List Roots} : Turning base t q around m test body → Tidy d m rest e →
      Stack d around e ks snaps → Stack false base q (.whileTest test cond body rest :: ks) (base :: snaps)
  | whileBody {d : Bool} {base around : Roots} {t q m e : Litter} {cond : Reg} {test body rest : List Instr}
      {ks : List Kont} {snaps : List Roots} : Turning base t q around m test body → Tidy d m rest e →
      Stack d around e ks snaps → Stack false base t (.whileBody test cond body rest :: ks) (base :: snaps)
  | foreverLoop {base : Roots} {body : List Instr} {ks : List Kont} {snaps : List Roots} :
      Tidy false .still body .still → snaps.length = ks.length →
      Stack false base .still (.foreverLoop body :: ks) (base :: snaps)

/-- Where a function stands: before its save, in its body, or behind its restore. -/
inductive Stands (code : List Instr) (ks : List Kont) (r : Roots) : List Roots → Prop
  | entering : code = .entry d .rootSave [] :: is → ks = [] → Tidy false .still is .still →
      Stands code ks r []
  | inside : Tidy d m code e → Sits base m r →
      Stack d base e ks snaps → Stands code ks r snaps
  | leaving {snaps : List Roots} : Instr.Exits code → snaps.length = ks.length → Stands code ks r snaps

theorem Stack.length (h : Stack d base e ks snaps) : snaps.length = ks.length := by
  induction h with
  | done => rfl
  | foreverLoop _ hlen => exact congrArg (· + 1) hlen
  | next _ _ _ ih | closeRoots _ _ _ _ ih | countLoop _ _ _ _ ih | whileTest _ _ _ ih | whileBody _ _ _ ih =>
    exact congrArg (· + 1) ih

theorem Stack.register (h : Stack true base e ks snaps) (i : Nat) : Stack true (base.addNamed i) e ks snaps := by
  cases h with
  | done => exact .done
  | closeRoots hopened haround hrest hstack => exact .closeRoots (hopened.addNamed (Nat.zero_le i)) haround hrest hstack

theorem Stands.length (h : Stands code ks r snaps) : snaps.length = ks.length := by
  cases h with
  | entering _ hks _ => rw [hks, List.length_nil, List.length_nil]
  | inside _ _ hstack => exact hstack.length
  | leaving _ hlen => exact hlen

/-! ### Steps -/

/-- A step of a function enters a body with the roots `r`, goes on in one, or comes to its end. -/
inductive Shift (r : Roots) : List Roots → List Roots → Prop
  | same : Shift r snaps snaps
  | push : Shift r snaps (r :: snaps)
  | pop : Shift r (x :: snaps) snaps

inductive Goes (m : Machine) (snaps : List Roots) : Progress → Prop
  | stays : Stands a.code a.konts s.memory.roots snaps' → Shift m.session.memory.roots snaps snaps' → Goes m
      snaps (.running ⟨s, a, m.waiting⟩)
  | calls {s : Session} {a caller : Activation} : Stands a.code a.konts s.memory.roots [] →
      (∀ new, Stands caller.code caller.konts (m.session.memory.roots.extend new) snaps) →
      Goes m snaps (.running ⟨s, a, caller :: m.waiting⟩)
  | leaves : Goes m snaps (leave s m.waiting a v)

theorem stands_start {p : ProgramCode} (hp : p.Tidy) (f : Nat) (r : Roots) :
    Stands (p.functions.getD f default).code [] r [] := by
  rw [Array.getD_eq_getD_getElem?]
  cases hf : p.functions[f]? with
  | none => exact .inside (d := false) (m := .still) .nil rfl .done
  | some fn =>
    obtain ⟨d, is, hcode, htidy⟩ := hp.functions fn (Array.mem_of_getElem? hf)
    exact .entering hcode rfl htidy

section Step

variable {s : Session} {d : Bool} {base : Roots} {m e : Litter} {is : List Instr} {ks : List Kont}
  {snaps : List Roots}

theorem goes_quiet (hi : i.isQuiet = true) (htidy : Tidy d m is e) (hsits : Sits base m s.memory.roots)
    (hstack : Stack d base e ks snaps) :
    Goes ⟨s, ⟨i :: is, ks, regs, low, dst⟩, ws⟩ snaps (execute p s ws ⟨is, ks, regs, low, dst⟩ i) := by
  have hgo : ∀ {s' : Session} {regs' : Array Value}, s'.memory.roots = s.memory.roots →
      Goes ⟨s, ⟨i :: is, ks, regs, low, dst⟩, ws⟩ snaps (.running ⟨s', ⟨is, ks, regs', low, dst⟩, ws⟩) :=
    fun {s'} {_} hr => .stays (.inside htidy (hr ▸ hsits) hstack) .same
  cases i with
  | constant | unary | binary | element | load | address => exact hgo rfl
  | store => exact hgo rfl
  | poll =>
    rw [execute]
    split
    · exact .leaves
    · exact hgo rfl
  | entry r e args => exact hgo (roots_quiet hi _ s)
  | call | ret | rooted | ifThen | countLoop | whileLoop | foreverLoop => cases hi

theorem goes_soils (hp : p.Tidy) (hm : m ≠ .still) (hi : i.soils = true) (htidy : Tidy d .dirty is e)
    (hsits : Sits base m s.memory.roots) (hstack : Stack d base e ks snaps) :
    Goes ⟨s, ⟨i :: is, ks, regs, low, dst⟩, ws⟩ snaps (execute p s ws ⟨is, ks, regs, low, dst⟩ i) := by
  cases i with
  | entry r e args =>
    have hsoiled : ∀ vs, Sits base .dirty (e.run vs s).2.memory.roots := fun vs => by
      obtain ⟨new, hroots⟩ := roots_ordinary (Bool.and_eq_true_iff.mp hi).1 vs s
      rw [hroots]
      exact hsits.soil hm new
    exact .stays (.inside htidy (hsoiled _) hstack) .same
  | call r f args => exact .calls (stands_start hp f _) fun new => .inside htidy (hsits.soil hm new) hstack
  | _ => cases hi

theorem goes_rooted (hbody : Tidy true .clean body e') (htidy : Tidy d m is e) (hsits : Sits base m s.memory.roots)
    (hstack : Stack d base e ks snaps) : Goes ⟨s, ⟨.rooted body :: is, ks, regs, low, dst⟩, ws⟩ snaps
      (execute p s ws ⟨is, ks, regs, low, dst⟩ (.rooted body)) := by
  have hroots : s.rootBegin.memory.roots = s.memory.roots.openFrame.2 := roots_onRoots s _
  refine .stays (.inside hbody ?_ (.closeRoots (.openFrame 0 _) hsits htidy hstack)) .push
  exact ⟨hroots, flat_openFrame _⟩

theorem goes_countRound {a : Activation} (hbody : Tidy false .still body .still) (htidy : Tidy d m is e)
    (hsits : Sits base m s.memory.roots) (hstack : Stack d base e a.konts snaps)
    (hround : Shift m₀.session.memory.roots snaps₀ (s.memory.roots :: snaps))
    (hover : Shift m₀.session.memory.roots snaps₀ snaps) :
    Goes m₀ snaps₀ (goOn s m₀.waiting (a.countRound counter body is)) := by
  unfold Activation.countRound
  simp only
  split
  · exact .stays (.inside htidy hsits hstack) hover
  · exact .stays (.inside hbody rfl (.countLoop hbody hsits htidy hstack)) hround

theorem goes_inside (hp : p.Tidy) (htidy : Tidy d m (i :: is) e) (hsits : Sits base m s.memory.roots)
    (hstack : Stack d base e ks snaps) :
    Goes ⟨s, ⟨i :: is, ks, regs, low, dst⟩, ws⟩ snaps (execute p s ws ⟨is, ks, regs, low, dst⟩ i) := by
  cases htidy with
  | quiet hi hrest => exact goes_quiet hi hrest hsits hstack
  | soil hm hi hrest => exact goes_soils hp hm hi hrest hsits hstack
  | flush hm hrest =>
    refine .stays (.inside hrest ?_ hstack) .same
    have hroots : s.flush.memory.roots = s.memory.roots.flush := roots_onRoots s _
    exact hroots ▸ hsits.flush hm
  | @register _ _ r x _ hm hrest =>
    rcases roots_addRoot s ((Activation.mk is ks regs low dst).get x) with hsame | ⟨i, hnew⟩
    · exact .stays (.inside hrest (hsame ▸ hsits) hstack) .same
    · exact .stays (.inside hrest (hnew ▸ hsits.addNamed hm i) (hstack.register i)) .same
  | rooted hbody hrest => exact goes_rooted hbody hrest hsits hstack
  | ifThen hbody hrest =>
    rw [execute]
    split
    · exact .stays (.inside hbody rfl (.next hsits hrest hstack)) .push
    · exact .stays (.inside hrest hsits hstack) .same
  | countLoop hbody hrest => exact goes_countRound hbody hrest hsits hstack .push .same
  | foreverLoop hbody hrest => exact .stays (.inside hbody rfl (.foreverLoop hbody hstack.length)) .push
  | whileCalm htest hbody hrest =>
    refine .stays (.inside htest rfl (.whileTest ⟨htest, hbody, rfl, by simp, ?_⟩ hrest hstack)) .push
    rintro r rfl
    exact hsits
  | whileSwept htest hbody hrest =>
    obtain ⟨hroots, hflat⟩ := hsits
    refine .stays (.inside htest ⟨hroots, hflat⟩ ?_) .push
    rw [show (⟨s, ⟨_, ks, regs, low, dst⟩, ws⟩ : Machine).session.memory.roots = base from hroots]
    exact .whileTest ⟨htest, hbody, ⟨rfl, hflat⟩, by simp, fun _ h => h⟩ hrest hstack
  | leave hexits => exact .stays (.leaving hexits hstack.length) .same

theorem goes_resume (hsits : Sits base e s.memory.roots) (hstack : Stack d base e (k :: ks) snaps) :
    Goes ⟨s, ⟨[], k :: ks, regs, low, dst⟩, ws⟩ snaps (resume s ws ⟨[], ks, regs, low, dst⟩ k) := by
  cases hstack with
  | next haround hrest hstack =>
    obtain rfl : s.memory.roots = base := hsits
    exact .stays (.inside hrest haround hstack) .pop
  | closeRoots hopened haround hrest hstack =>
    obtain ⟨more, hmore⟩ := hsits.grown
    have hroots : s.rootEnd.memory.roots = s.memory.roots.closeFrame.2 := roots_onRoots s _
    rw [hmore, (opened_extend hopened more).closeFrame] at hroots
    exact .stays (.inside hrest (hroots ▸ haround) hstack) .pop
  | countLoop hbody haround hrest hstack =>
    obtain rfl : s.memory.roots = base := hsits
    exact goes_countRound hbody hrest haround hstack .same .pop
  | whileTest hturning hrest hstack =>
    rw [resume]
    split
    · exact .stays (.inside hturning.body hsits (.whileBody hturning hrest hstack)) .same
    · exact .stays (.inside hrest (hturning.leaves _ hsits) hstack) .pop
  | whileBody hturning hrest hstack =>
    exact .stays (.inside hturning.test hsits (.whileTest hturning hrest hstack)) .same
  | foreverLoop hbody hlen => exact .stays (.inside hbody hsits (.foreverLoop hbody hlen)) .same

end Step

theorem Stands.goes (hp : p.Tidy) (h : Stands m.active.code m.active.konts m.session.memory.roots snaps) :
    Goes m snaps (step p m) := by
  obtain ⟨s, ⟨code, ks, regs, low, dst⟩, ws⟩ := m
  cases h with
  | entering hcode hks htidy =>
    cases hcode
    cases hks
    exact .stays (.inside htidy rfl .done) .same
  | inside htidy hsits hstack =>
    cases code with
    | cons i is => exact goes_inside hp htidy hsits hstack
    | nil =>
      cases htidy
      cases ks with
      | nil => exact .leaves
      | cons k ks => exact goes_resume hsits hstack
  | leaving hexits hlen =>
    cases hexits with
    | @ret r is =>
      cases r with
      | none | some => exact .leaves
    | constant hrest | entry hrest => exact .stays (.leaving hrest hlen) .same

end Sweeping

end Blockwork
