import Blockwork.Compile.Scope

/-! # Slots of local variables
A function keeps an arena of slots; the first of them are in use, and a variable scope remembers how many were
when it was opened. -/

namespace Blockwork

def Storage.slot? : Storage → Option Nat
  | slot i => some i
  | constant _ => none
  | global _ => none

/-- The slots of variables, in the order of declaration. -/
def slotsOf (vs : List Variable) : List Nat := vs.filterMap (·.storage.slot?)

theorem slotsOf_append (vs ws : List Variable) : slotsOf (vs ++ ws) = slotsOf vs ++ slotsOf ws := List.filterMap_append

theorem slotsOf_singleton (v : Variable) : slotsOf [v] = v.storage.slot?.toList := by
  cases hv : v.storage.slot? <;> simp [slotsOf, hv]

namespace Scopes

variable {α : Type}

structure Ledger (α : Type) where
  scopes : Scopes α := {}
  /-- The slot that the last move asked for. -/
  granted : Option Nat := none
  /-- Slots that were created, the latest first. -/
  created : List Nat := []
  peak : Nat := 0

/-- What is asked of variable scopes. -/
inductive Move where
  | enter (loc : Location)
  | leave (loc : Location)
  | restart
  | declare (v : Variable)
  | request (fresh : Nat)

namespace Ledger

variable {b older : Ledger α}

def record (b : Ledger α) (s : Scopes α) : Ledger α := ⟨s, none, b.created, max b.peak s.slotsUsed⟩

def run (b : Ledger α) : Move → Ledger α
  | .enter loc => b.record (b.scopes.pushVariableFrame loc).2
  | .leave loc => b.record (b.scopes.popVariableFrame loc).2
  | .restart => b.record b.scopes.resetChain
  | .declare v => b.record (b.scopes.declare v)
  | .request fresh =>
    match b.scopes.reuseSlot with
    | (some i, s) => { b.record s with granted := some i }
    | (none, s) => { b.record (s.addSlot fresh) with granted := some fresh, created := fresh :: b.created }

/-- A variable with a slot is declared with the one asked for just before, and a slot that is added is a new one. -/
def Fair (b : Ledger α) : Move → Prop
  | .declare v => v.storage.slot? = none ∨ v.storage.slot? = b.granted
  | .request fresh => b.scopes.reuseSlot.1 = none → fresh ∉ b.created
  | _ => True

def after (b : Ledger α) (ms : List Move) : Ledger α := ms.foldl run b

def FairAll : Ledger α → List Move → Prop
  | _, [] => True
  | b, m :: ms => b.Fair m ∧ (b.run m).FairAll ms

def depth (b : Ledger α) : Nat := b.scopes.variableFrames.size

/-- After each of some moves at least `n` variable scopes are open. -/
def Stays (n : Nat) : Ledger α → List Move → Prop
  | _, [] => True
  | b, m :: ms => n ≤ (b.run m).depth ∧ Stays n (b.run m) ms

/-! ### What every move keeps -/

structure Sound (b : Ledger α) : Prop where
  arena : b.scopes.slots.toList = b.created.reverse
  distinct : b.created.Nodup
  count : b.created.length = b.peak
  used : b.scopes.slotsUsed ≤ b.peak
  held : (slotsOf b.scopes.locals.toList ++ b.granted.toList).Sublist (b.created.reverse.take b.scopes.slotsUsed)
  nested : b.scopes.variableFrames.toList.Pairwise fun f g => f.base ≤ g.base ∧ f.slotMark ≤ g.slotMark
  frames : ∀ f ∈ b.scopes.variableFrames.toList, f.base ≤ b.scopes.locals.size ∧ f.slotMark ≤ b.scopes.slotsUsed ∧
    (slotsOf (b.scopes.locals.toList.take f.base)).Sublist (b.created.reverse.take f.slotMark)

theorem sound_new : ({} : Ledger α).Sound := by
  constructor <;> simp [slotsOf]

theorem Sound.visible (h : b.Sound) :
    (slotsOf b.scopes.locals.toList).Sublist (b.created.reverse.take b.scopes.slotsUsed) :=
  (List.sublist_append_left _ _).trans h.held

theorem Sound.same (h : b.Sound) : (b.record b.scopes).Sound :=
  { h with
    count := by rw [record, Nat.max_eq_left h.used]; exact h.count
    used := Nat.le_max_right _ _
    held := by rw [record, Option.toList_none, List.append_nil]; exact h.visible }

theorem Sound.enter (h : b.Sound) (loc : Location) : (b.run (.enter loc)).Sound := by
  rw [run, pushVariableFrame]
  split
  · exact h.same
  · refine { h.same with nested := ?_, frames := fun f hf => ?_ }
    · refine (Array.toList_push ▸ List.pairwise_append).mpr ⟨h.nested, List.pairwise_singleton _ _, fun f hf g hg => ?_⟩
      obtain rfl := List.mem_singleton.mp hg
      exact ⟨(h.frames f hf).1, (h.frames f hf).2.1⟩
    · rcases List.mem_append.mp (Array.toList_push ▸ hf) with hf | hf
      · exact h.frames f hf
      · obtain rfl := List.mem_singleton.mp hf
        refine ⟨Nat.le_refl _, Nat.le_refl _, ?_⟩
        rw [record, ← Array.length_toList, List.take_length]
        exact h.visible

theorem popVariableFrame_cases (s : Scopes α) (loc : Location) :
    (s.variableFrames = #[] ∧ s.popVariableFrame loc = failed .variableUnderflow (some loc) s) ∨
      ∃ front f t, s.variableFrames.toList = front ++ [f] ∧ s.popVariableFrame loc = (.ok (), t) ∧
        t = { s with variableFrames := s.variableFrames.pop, locals := s.locals.shrink f.base, slotsUsed := f.slotMark } ∧
        t.variableFrames.toList = front ∧ t.locals.toList = s.locals.toList.take f.base := by
  unfold popVariableFrame
  cases hback : s.variableFrames.back? with
  | none => exact .inl ⟨Array.back?_eq_none_iff.mp hback, rfl⟩
  | some f =>
    rw [← Array.getLast?_toList, List.getLast?_eq_some_iff] at hback
    obtain ⟨front, hfront⟩ := hback
    refine .inr ⟨front, f, _, hfront, rfl, rfl, ?_, Array.toList_shrink⟩
    rw [Array.toList_pop, hfront, List.dropLast_concat]

theorem Sound.leave (h : b.Sound) (loc : Location) : (b.run (.leave loc)).Sound := by
  rcases popVariableFrame_cases b.scopes loc with ⟨-, hpop⟩ | ⟨front, f, t, hframes, hpop, ht, hfront, hlocals⟩
  · rw [run, hpop]
    exact h.same
  · obtain ⟨hbase, hmark, hslots⟩ := h.frames f (hframes ▸ List.mem_append_right _ (List.mem_singleton_self f))
    have hpair := h.nested
    rw [hframes, List.pairwise_append] at hpair
    have hused : t.slotsUsed = f.slotMark := by rw [ht]
    have hslot : t.slots = b.scopes.slots := by rw [ht]
    rw [run, hpop]
    have hpeak : max b.peak t.slotsUsed = b.peak := Nat.max_eq_left (hused ▸ Nat.le_trans hmark h.used)
    refine ⟨hslot ▸ h.arena, h.distinct, h.count.trans hpeak.symm, Nat.le_max_right _ _, ?_, hfront ▸ hpair.1, fun g hg => ?_⟩
    · rw [record, hlocals, hused, Option.toList_none, List.append_nil]
      exact hslots
    · obtain ⟨hgf, hgm⟩ := hpair.2.2 g (hfront ▸ hg) f (List.mem_singleton_self f)
      have hsize : t.locals.size = min f.base b.scopes.locals.size := by
        rw [← Array.length_toList, hlocals, List.length_take, Array.length_toList]
      refine ⟨by rw [record, hsize]; omega, hused ▸ hgm, ?_⟩
      rw [record, hlocals, List.take_take, Nat.min_eq_left hgf]
      exact (h.frames g (hframes ▸ List.mem_append_left _ (hfront ▸ hg))).2.2

theorem Sound.restart (h : b.Sound) : (b.run .restart).Sound :=
  ⟨h.arena, h.distinct, h.count.trans (Nat.max_eq_left (Nat.zero_le _)).symm, Nat.zero_le _, .slnil, .nil, nofun⟩

theorem Sound.declare {v : Variable} (h : b.Sound) (hv : b.Fair (.declare v)) : (b.run (.declare v)).Sound := by
  refine { h.same with held := ?_, frames := fun f hf => ?_ }
  · have hone : (slotsOf [v]).Sublist b.granted.toList := by
      rw [slotsOf_singleton]
      rcases hv with hnone | hsome
      · rw [hnone]
        exact List.nil_sublist _
      · exact hsome ▸ .refl _
    rw [run, record, Option.toList_none, List.append_nil, Scopes.declare, Array.toList_push, slotsOf_append]
    exact (hone.append_left _).trans h.held
  · obtain ⟨hbase, hmark, hslots⟩ := h.frames f hf
    rw [run, record, Scopes.declare, Array.size_push, Array.toList_push, List.take_append_of_le_length
      (by rw [Array.length_toList]; exact hbase)]
    exact ⟨Nat.le_succ_of_le hbase, hmark, hslots⟩

theorem Sound.request (h : b.Sound) {fresh : Nat} (hfresh : b.Fair (.request fresh)) :
    (b.run (.request fresh)).Sound := by
  have hsize : b.scopes.slots.size = b.peak := by
    rw [← Array.length_toList, h.arena, List.length_reverse, h.count]
  have hused := h.used
  cases hslot : b.scopes.slots[b.scopes.slotsUsed]? with
  | some i =>
    have hreuse : b.scopes.reuseSlot = (some i, { b.scopes with slotsUsed := b.scopes.slotsUsed + 1 }) := by
      rw [reuseSlot, hslot]
    obtain ⟨hlt, -⟩ := Array.getElem?_eq_some_iff.mp hslot
    rw [← Array.getElem?_toList, h.arena] at hslot
    simp only [run, hreuse]
    refine ⟨h.arena, h.distinct, h.count.trans (Nat.max_eq_left ?_).symm, Nat.le_max_right _ _, ?_, h.nested,
      fun f hf => ?_⟩
    · dsimp only
      omega
    · dsimp only [record]
      rw [List.take_add_one, hslot]
      exact h.visible.append_right _
    · exact (h.frames f hf).imp_right fun hf => ⟨Nat.le_succ_of_le hf.1, hf.2⟩
  | none =>
    -- All slots are in use, so that nothing is cut off before the new one is added.
    have hreuse : b.scopes.reuseSlot = (none, b.scopes) := by rw [reuseSlot, hslot]
    have hfull : b.peak = b.scopes.slotsUsed := by
      have hle := Array.getElem?_eq_none_iff.mp hslot
      omega
    have htake {k : Nat} (hk : k ≤ b.peak) : (fresh :: b.created).reverse.take k = b.created.reverse.take k := by
      rw [List.reverse_cons, List.take_append_of_le_length (by rw [List.length_reverse, h.count]; exact hk)]
    simp only [run, hreuse]
    refine ⟨?_, List.nodup_cons.mpr ⟨hfresh (by rw [hreuse]), h.distinct⟩, ?_, Nat.le_max_right _ _, ?_, h.nested,
      fun f hf => ?_⟩
    · dsimp only [record, addSlot]
      rw [Array.toList_push, Array.toList_shrink, h.arena, List.reverse_cons,
        List.take_of_length_le (Nat.le_of_eq (by rw [List.length_reverse, h.count, hfull]))]
    · dsimp only [record, addSlot]
      rw [List.length_cons, h.count]
      omega
    · dsimp only [record, addSlot]
      rw [List.take_of_length_le (by rw [List.length_reverse, List.length_cons, h.count]; omega), List.reverse_cons]
      exact (h.visible.trans (List.take_sublist _ _)).append_right _
    · obtain ⟨hbase, hmark, hslots⟩ := h.frames f hf
      refine ⟨hbase, Nat.le_succ_of_le hmark, ?_⟩
      rw [htake (Nat.le_trans hmark h.used)]
      exact hslots

theorem Sound.run {m : Move} (h : b.Sound) (hm : b.Fair m) : (b.run m).Sound := by
  cases m with
  | enter loc => exact h.enter loc
  | leave loc => exact h.leave loc
  | restart => exact h.restart
  | declare v => exact h.declare hm
  | request fresh => exact h.request hm

theorem Sound.after (h : b.Sound) (hfair : b.FairAll ms) : (b.after ms).Sound := by
  induction ms generalizing b with
  | nil => exact h
  | cons m ms ih => exact ih (h.run hfair.1) hfair.2

/-- The scope that was opened in `older`, with more scopes inside it or not, above what was visible then. -/
structure Above (older b : Ledger α) : Prop where
  frames : ∃ inner, b.scopes.variableFrames.toList = older.scopes.variableFrames.toList ++
    ⟨older.scopes.locals.size, older.scopes.slotsUsed⟩ :: inner
  locals : b.scopes.locals.toList.take older.scopes.locals.size = older.scopes.locals.toList

theorem Above.run {m : Move} (h : Above older b) (hs : b.Sound) (hm : older.depth < (b.run m).depth) :
    Above older (b.run m) := by
  obtain ⟨⟨inner, hframes⟩, hlocals⟩ := h
  have hle : older.scopes.locals.size ≤ b.scopes.locals.size :=
    (hs.frames _ (hframes ▸ List.mem_append_right _ List.mem_cons_self)).1
  cases m with
  | enter loc =>
    rw [Ledger.run, pushVariableFrame]
    split
    · exact ⟨⟨inner, hframes⟩, hlocals⟩
    · refine ⟨⟨inner ++ [⟨b.scopes.locals.size, b.scopes.slotsUsed⟩], ?_⟩, hlocals⟩
      dsimp only [record]
      rw [Array.toList_push, hframes, List.append_assoc, List.cons_append]
  | leave loc =>
    rcases popVariableFrame_cases b.scopes loc with ⟨-, hpop⟩ | ⟨front, f, t, hlast, hpop, -, hfront, ht⟩
    · rw [Ledger.run, hpop]
      exact ⟨⟨inner, hframes⟩, hlocals⟩
    · rw [Ledger.run, hpop] at hm ⊢
      have hlength : older.depth < front.length := by rw [← hfront, Array.length_toList]; exact hm
      -- The scope that is left is one inside, whose base is not below the one of the outer scope.
      obtain ⟨inside, rfl⟩ : ∃ inside, inner = inside ++ [f] := by
        rcases List.eq_nil_or_concat inner with rfl | ⟨inside, g, rfl⟩
        · have hsame := congrArg List.length (hframes.symm.trans hlast)
          simp only [List.length_append, Array.length_toList, List.length_cons, List.length_nil] at hsame
          unfold depth at hlength
          omega
        · rw [hframes, List.concat_eq_append, ← List.cons_append, ← List.append_assoc] at hlast
          obtain ⟨-, hg⟩ := List.append_inj' hlast rfl
          cases hg
          exact ⟨inside, List.concat_eq_append⟩
      have hbase : older.scopes.locals.size ≤ f.base := by
        have hpair := hs.nested
        rw [hframes, List.pairwise_append, List.pairwise_cons] at hpair
        exact (hpair.2.1.1 f (List.mem_append_right _ (List.mem_singleton_self f))).1
      refine ⟨⟨inside, ?_⟩, ?_⟩
      · rw [record, hfront]
        refine List.append_cancel_right (?_ : _ ++ [f] = _ ++ [f])
        rw [← hlast, hframes, List.append_assoc, List.cons_append]
      · rw [record, ht, List.take_take, Nat.min_eq_left hbase]
        exact hlocals
  | restart => exact absurd hm (Nat.not_lt_zero _)
  | declare v =>
    refine ⟨⟨inner, hframes⟩, ?_⟩
    dsimp only [Ledger.run, record, Scopes.declare]
    rw [Array.toList_push, List.take_append_of_le_length (by rw [Array.length_toList]; exact hle)]
    exact hlocals
  | request fresh =>
    rw [Ledger.run, reuseSlot]
    cases b.scopes.slots[b.scopes.slotsUsed]? <;> exact ⟨⟨inner, hframes⟩, hlocals⟩

theorem Above.after (h : Above older b) (hs : b.Sound) (hfair : b.FairAll ms) (hstays : Stays (older.depth + 1) b ms) :
    Above older (b.after ms) := by
  induction ms generalizing b with
  | nil => exact h
  | cons m ms ih => exact ih (h.run hs hstays.1) (hs.run hfair.1) hfair.2 hstays.2

theorem Above.leaves (h : Above older b) (hdepth : b.depth = older.depth + 1) (loc : Location) :
    ∃ t, b.scopes.popVariableFrame loc = (.ok (), t) ∧ t.locals = older.scopes.locals ∧
      t.slotsUsed = older.scopes.slotsUsed ∧ t.variableFrames = older.scopes.variableFrames := by
  obtain ⟨⟨inner, hframes⟩, hlocals⟩ := h
  obtain rfl : inner = [] := by
    have hlength := congrArg List.length hframes
    simp only [List.length_append, Array.length_toList, List.length_cons] at hlength
    unfold depth at hdepth
    exact List.eq_nil_of_length_eq_zero (by omega)
  rcases popVariableFrame_cases b.scopes loc with ⟨hnone, -⟩ | ⟨front, f, t, hlast, hpop, ht, hfront, htake⟩
  · rw [hnone] at hframes
    simp at hframes
  · obtain ⟨rfl, hf⟩ := List.append_inj' (hlast.symm.trans hframes) rfl
    cases hf
    exact ⟨t, hpop, Array.toList_inj.mp (htake.trans hlocals), by rw [ht], Array.toList_inj.mp hfront⟩

end Ledger

theorem findLocal?_eq_some_iff {s : Scopes α} {name : String} {v : Variable} : s.findLocal? name = some v ↔
    ∃ outer inner, s.locals.toList = outer ++ v :: inner ∧ v.name = name ∧ ∀ u ∈ inner, u.name ≠ name := by
  rw [findLocal?, List.find?_eq_some_iff_append]
  constructor
  · rintro ⟨hname, before, behind, hlocals, hother⟩
    refine ⟨behind.reverse, before.reverse, ?_, by simpa using hname, fun u hu => ?_⟩
    · rw [← List.reverse_reverse s.locals.toList, hlocals]
      simp
    · simpa using hother u (List.mem_reverse.mp hu)
  · rintro ⟨outer, inner, hlocals, hname, hother⟩
    refine ⟨by simpa using hname, inner.reverse, outer.reverse, by simp [hlocals], fun u hu => ?_⟩
    simpa using hother u (List.mem_reverse.mp hu)

open Ledger in
/-- Variables in scope never share a slot. After any moves, the slots in use are some of the arena, variables in scope
have slots of their own among them, and as many slots were created as were ever in use at a time. A name stands for the
innermost variable. A scope that is left, whatever was done inside it, gives back the variables, slots and scopes from
when it was entered; where none is open, leaving fails and changes nothing. -/
theorem slots_never_alias (ms : List Move) (hfair : ({} : Ledger α).FairAll ms) :
    let b : Ledger α := after {} ms
    b.scopes.slotsUsed ≤ b.scopes.slots.size ∧ (slotsOf b.scopes.locals.toList).Nodup ∧
    (∀ i ∈ slotsOf b.scopes.locals.toList, i ∈ b.scopes.slots.toList.take b.scopes.slotsUsed) ∧
    b.created.length = b.peak ∧
    (∀ name v, b.scopes.findLocal? name = some v ↔
      ∃ outer inner, b.scopes.locals.toList = outer ++ v :: inner ∧ v.name = name ∧ ∀ u ∈ inner, u.name ≠ name) ∧
    (∀ loc e t, b.scopes.popVariableFrame loc = (.error e, t) ↔
      b.scopes.variableFrames = #[] ∧ e = ⟨.variableUnderflow, some loc⟩ ∧ t = b.scopes) ∧
    ∀ enter inside leave s, b.scopes.pushVariableFrame enter = (.ok (), s) → (b.run (.enter enter)).FairAll inside →
      Stays (b.depth + 1) (b.run (.enter enter)) inside → (b.after (.enter enter :: inside)).depth = b.depth + 1 →
      ∃ t, (b.after (.enter enter :: inside)).scopes.popVariableFrame leave = (.ok (), t) ∧
        t.locals = b.scopes.locals ∧ t.slotsUsed = b.scopes.slotsUsed ∧ t.variableFrames = b.scopes.variableFrames := by
  intro b
  have hsound : b.Sound := sound_new.after hfair
  refine ⟨?_, ?_, fun i hi => ?_, hsound.count, fun _ _ => findLocal?_eq_some_iff, fun loc e t => ?_, ?_⟩
  · rw [← Array.length_toList, hsound.arena, List.length_reverse, hsound.count]
    exact hsound.used
  · exact ((List.reverse_perm _).nodup_iff.mpr hsound.distinct).sublist (hsound.visible.trans (List.take_sublist _ _))
  · rw [hsound.arena]
    exact hsound.visible.subset hi
  · rcases popVariableFrame_cases b.scopes loc with ⟨hnone, hpop⟩ | ⟨front, f, t', hlast, hpop, -⟩
    · rw [hpop]
      constructor
      · rintro ⟨⟩
        exact ⟨hnone, rfl, rfl⟩
      · rintro ⟨-, rfl, rfl⟩
        rfl
    · rw [hpop]
      constructor
      · rintro ⟨⟩
      · rintro ⟨hnone, -⟩
        rw [hnone] at hlast
        simp at hlast
  · intro enter inside leave s hpush hinside hstays hdepth
    have habove : Above b (b.run (.enter enter)) := by
      rw [run, pushVariableFrame]
      split
      next hfull =>
        rw [pushVariableFrame, if_pos hfull] at hpush
        cases hpush
      next =>
        refine ⟨⟨[], Array.toList_push⟩, ?_⟩
        dsimp only [record]
        rw [← Array.length_toList, List.take_length]
    exact (habove.after (hsound.enter enter) hinside hstays).leaves hdepth leave

open Ledger in
/-- A scope in which a name is declared again, with another scope inside whose slot is taken over. -/
theorem slots_never_alias_shadowed : ∃ b t : Ledger Unit,
    b = after {} [.leave ⟨0, []⟩, .request 7, .declare ⟨"x", .value .integer, .slot 7⟩] ∧
    t = b.after [.enter ⟨0, [1]⟩, .request 9, .declare ⟨"x", .value .float, .slot 9⟩, .enter ⟨0, [2]⟩, .request 4,
      .declare ⟨"y", .value .bool, .slot 4⟩, .leave ⟨0, [3]⟩, .request 5, .declare ⟨"z", .value .any, .slot 4⟩] ∧
    slotsOf t.scopes.locals.toList = [7, 9, 4] ∧ t.created.length = 3 ∧ t.peak = 3 ∧
    (t.scopes.popVariableFrame ⟨0, [4]⟩).2.locals = b.scopes.locals := by
  refine ⟨_, _, rfl, rfl, rfl, rfl, rfl, ?_⟩
  have hall := slots_never_alias (α := Unit) [.leave ⟨0, []⟩, .request 7, .declare ⟨"x", .value .integer, .slot 7⟩]
    ⟨trivial, fun _ => List.not_mem_nil, .inr rfl, trivial⟩
  obtain ⟨t, hleft, hlocals, -⟩ := hall.2.2.2.2.2.2 ⟨0, [1]⟩ [.request 9, .declare ⟨"x", .value .float, .slot 9⟩,
      .enter ⟨0, [2]⟩, .request 4, .declare ⟨"y", .value .bool, .slot 4⟩, .leave ⟨0, [3]⟩, .request 5,
      .declare ⟨"z", .value .any, .slot 4⟩] ⟨0, [4]⟩ _ rfl
    ⟨fun _ => by decide, .inr rfl, trivial, fun _ => by decide, .inr rfl, trivial, fun _ => by decide, .inr rfl, trivial⟩
    ⟨by decide, by decide, by decide, by decide, by decide, by decide, by decide, by decide, trivial⟩ rfl
  exact (congrArg (·.2.locals) hleft).trans hlocals

end Scopes

end Blockwork
