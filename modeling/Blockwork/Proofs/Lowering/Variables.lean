import Blockwork.Proofs.Lowering.Operations

/-! # Variables
Loading a variable gives a value of its kind. -/

namespace Blockwork.Flow

open List (prefix_rfl append_nil)

open Lower Scopes

variable {vs : Array Variable} {s : LowerState} {pt : Point}
  {f : Facts}

theorem mem_of_reverse_find? (h : vs.toList.reverse.find? p = some v) : v ∈ vs :=
  Array.mem_toList_iff.mp (List.mem_reverse.mp (List.mem_of_find?_eq_some h))

theorem getElem?_lastNamed (h : vs.toList.reverse.find? (·.name == name) = some v) :
    ∃ i, lastNamed? vs name = some i ∧ vs[i]? = some v := by
  obtain ⟨hname, k, hk, hv, hlast⟩ := List.find?_eq_some_iff_getElem.mp h
  have hidx : vs.toList.reverse.findIdx? (·.name == name) = some k :=
    List.findIdx?_eq_some_iff_getElem.mpr ⟨hk, by rw [hv]; exact hname, fun j hj => by
      simpa using hlast j hj⟩
  have hlen : k < vs.size := by simpa using hk
  refine ⟨vs.size - 1 - k, by simp [lastNamed?, hidx], ?_⟩
  have hat : vs.toList.reverse[k]? = some v := by rw [List.getElem?_eq_getElem hk, hv]
  rw [List.getElem?_reverse (by simpa using hlen)] at hat
  simpa using hat

theorem lastNamed_none (h : vs.toList.reverse.find? (·.name == name) = none) : lastNamed? vs name = none := by
  have hidx : vs.toList.reverse.findIdx? (·.name == name) = none :=
    List.findIdx?_eq_none_iff.mpr fun v hv => by simpa using List.find?_eq_none.mp h v hv
  simp [lastNamed?, hidx]

theorem findVariable_ok (h : findVariable name loc env s = .ok v s') : s' = s ∧ (s.scopes.findLocal? name = some v ∨
      s.scopes.findLocal? name = none ∧ findGlobal? s.globals name = some v) := by
  obtain ⟨t, s₁, hget, h⟩ := bind_ok h
  cases hget
  cases hl : s.scopes.findLocal? name with
  | some =>
    rw [hl] at h
    cases h
    exact ⟨rfl, Or.inl rfl⟩
  | none =>
    cases hg : findGlobal? s.globals name with
    | none =>
      rw [hl, hg] at h
      exact (fail_ok h).elim
    | some =>
      rw [hl, hg] at h
      cases h
      exact ⟨rfl, Or.inr ⟨rfl, rfl⟩⟩

theorem Fit.visible (h : Fit C s pt)
    (hv : s.scopes.findLocal? name = some v ∨ s.scopes.findLocal? name = none ∧ findGlobal? s.globals name = some v) :
    Visible pt v :=
  hv.elim (fun hl => h.locals v (mem_of_reverse_find? hl)) (fun hg => h.globals v (mem_of_reverse_find? hg.2))

theorem loadPlace_goes (hx : loadPlace pl (.value ty) loc C.env s = .ok arg s') (hfit : Fit C s pt)
    (hp : pt.Has pl ty.isHeap) : ∃ pt', Goes C false s pt s' pt' ∧ pt'.KnowsAll C.rules (known arg) := by
  cases hx
  refine ⟨_, hfit.goes_written fun f hf => ?_, hfit.knows_written⟩
  subst hf
  exact .load hfit.bounded.fresh hfit.params hp

theorem loadVariable_emits (name : String) (loc : Location) : Emits C true [] (loadVariable name loc) known := by
  intro s pt arg s' hx hfit _
  obtain ⟨v, s₁, hfind, hload⟩ := bind_ok hx
  obtain ⟨rfl, hv⟩ := findVariable_ok hfind
  have hvis := hfit.visible hv
  cases hstorage : v.storage with
  | constant =>
    rw [hstorage] at hload
    cases hload
    exact ⟨pt, .refl hfit, nofun⟩
  | slot i =>
    rw [hstorage] at hload
    obtain ⟨ty, hty, hp⟩ := hvis (.slot i) (by rw [hstorage]; rfl)
    rw [hty] at hload
    obtain ⟨pt', hgo, hk⟩ := loadPlace_goes hload hfit hp
    exact ⟨pt', hgo.louder, hk⟩
  | global i =>
    rw [hstorage] at hload
    obtain ⟨ty, hty, hp⟩ := hvis (.global i) (by rw [hstorage]; rfl)
    rw [hty] at hload
    obtain ⟨pt', hgo, hk⟩ := loadPlace_goes hload hfit hp
    exact ⟨pt', hgo.louder, hk⟩

/-! ### Storing -/

def Point.stored (c : Rules) : Point → Point
  | .body f => .body (f.stored c)
  | pt => pt

theorem Facts.stored_regs (h : (f.stored c).regs r = some w) : f.regs r = some w := by
  unfold Facts.stored at h
  split at h
  · exact (Facts.settle_regs h).1
  · exact h

theorem Facts.stored_places : (f.stored c).places = f.places := by
  unfold Facts.stored
  split <;> rfl

theorem Facts.stored_fresh : (f.stored c).fresh = f.fresh := by
  unfold Facts.stored
  split <;> rfl

theorem Facts.stored_level : (f.stored c).level = f.level := by
  unfold Facts.stored
  split <;> rfl

theorem Facts.settle_within_stored : f.settle.Within (f.stored c) := by
  unfold Facts.stored
  split
  · exact .refl _
  · exact f.settle_within

theorem Point.Bounded.stored (h : pt.Bounded s) : (pt.stored c).Bounded s := by
  cases pt with
  | dead => trivial
  | left => exact h.elim
  | body =>
    obtain ⟨hregs, hplaces, hfresh⟩ := h
    refine ⟨fun r w hr => hregs r w (Facts.stored_regs hr), ?_, Facts.stored_fresh.trans hfresh⟩
    rw [Facts.stored_places]
    exact hplaces

theorem Point.Bounded.settle_sub_stored (h : pt.Bounded s) : pt.settle.Sub (pt.stored c) := by
  cases pt with
  | dead => trivial
  | left => exact h.elim
  | body f => exact ⟨Facts.settle_within_stored, (Facts.stored_level (f := f)).symm⟩

theorem Point.Bounded.sub_stored (h : pt.Bounded s) (hc : c.strict = false) : pt.Sub (pt.stored c) := by
  cases pt with
  | dead => trivial
  | left => exact h.elim
  | body f =>
    have hf : f.stored c = f := by simp [Facts.stored, hc]
    simp only [Point.stored, hf]
    exact ⟨.refl f, rfl⟩

theorem Visible.stored (h : Visible pt v) : Visible (pt.stored c) v := fun pl hpl => by
  obtain ⟨ty, hty, hp⟩ := h pl hpl
  refine ⟨ty, hty, ?_⟩
  cases pt with
  | dead => trivial
  | left => exact hp.elim
  | body =>
    simp only [Point.stored, Point.Has, Facts.stored_places]
    exact hp

theorem Fit.moves_assign (h : Fit C s pt) (hp : pt.Has pl ty.isHeap) (hr : pt.Knows C.rules r (wordOf ty)) :
    Moves C s pt C.cells { s with code := s.code.push (.store pl r) } (pt.stored C.rules) where
  code := by
    refine ⟨[.store pl r], by simp, ?_⟩
    cases pt with
    | dead => exact .dead
    | left => exact h.point.elim
    | body =>
      have hseal : C.rules.isSealed = true → C.rules.main = false → ∀ i, pl ≠ .global i := by
        simp [C.unsealed]
      exact .step (.assign h.bounded.fresh hr hp hseal) .nil
  sub := h.point.settle_sub_stored
  grown := Stable.grown ⟨rfl, rfl, rfl, Nat.le_refl _, id, Or.inl⟩
  table := prefix_rfl
  inner := fun _ => rfl
  fit :=
    { h with
      point := h.point.stored.mono (Nat.le_refl _) (Nat.le_refl _) (Nat.le_refl _)
      locals := fun v hv => (h.locals v hv).stored
      globals := fun v hv => (h.globals v hv).stored }

def retext (vs : Array Variable) (i : Nat) (text : String) : Array Variable :=
  vs.modify i fun v => { v with storage := .constant text }

theorem map_blank_retext (hi : vs[i]? = some v) (hv : v.storage = .constant old) :
    (retext vs i text).map blank = vs.map blank := by
  apply Array.ext_getElem?
  intro j
  simp only [retext, Array.getElem?_map, Array.getElem?_modify]
  by_cases hij : i = j
  · subst hij
    obtain ⟨name, ty, storage⟩ := v
    subst hv
    simp [hi, blank]
  · simp [hij]

theorem mem_retext (hv : v ∈ retext vs i text) : v ∈ vs ∨ v.storage = .constant text := by
  obtain ⟨j, hj⟩ := Array.mem_iff_getElem?.mp hv
  simp only [retext, Array.getElem?_modify] at hj
  split at hj
  · obtain ⟨w, -, rfl⟩ := Option.map_eq_some_iff.mp hj
    exact Or.inr rfl
  · exact Or.inl (Array.mem_iff_getElem?.mpr ⟨j, hj⟩)

theorem visible_text (hv : v.storage = .constant text) : Visible pt v := fun pl hpl => by
  rw [hv] at hpl
  cases hpl

theorem listed_text (hv : v.storage = .constant text) : Listed cells v := fun pl hpl => by
  rw [hv] at hpl
  cases hpl

theorem Fit.goes_setConstant (h : Fit C s pt)
    (hv : s.scopes.findLocal? name = some v ∨ s.scopes.findLocal? name = none ∧ findGlobal? s.globals name = some v)
    (hold : v.storage = .constant old) (hx : setConstant name text C.env s = .ok () s') : Goes C true s pt s' pt := by
  obtain ⟨found, s₁, hset, hx⟩ := bind_ok hx
  rcases hv with hl | ⟨hl, hg⟩
  · obtain ⟨i, hi, hat⟩ := getElem?_lastNamed hl
    simp only [tryScopes, setLocal, hi] at hset
    cases hset
    cases hx
    refine ⟨⟨[], (append_nil _).symm, .nil⟩, h.sub_refl, ?_, nofun, ?_⟩
    · refine ⟨?_, rfl, rfl, Nat.le_refl _, id, Or.inl⟩
      have hlocals : (retext s.scopes.locals i text).map blank = s.scopes.locals.map blank :=
        map_blank_retext hat hold
      simp only [skeleton, ← hlocals, retext]
    · exact
        { h with
          point := h.point.mono (Nat.le_refl _) (Nat.le_refl _) (Nat.le_refl _)
          locals := fun w hw => (mem_retext hw).elim (h.locals w) visible_text }
  · have hnone : lastNamed? s.scopes.locals name = none := lastNamed_none hl
    obtain ⟨i, hi, hat⟩ := getElem?_lastNamed hg
    simp only [tryScopes, setLocal, hnone] at hset
    cases hset
    cases hx
    simp only [hi]
    refine ⟨⟨[], (append_nil _).symm, .nil⟩, h.sub_refl, ?_, nofun, ?_⟩
    · exact ⟨rfl, map_blank_retext hat hold, rfl, Nat.le_refl _, id, Or.inl⟩
    · exact
        { h with
          point := h.point.mono (Nat.le_refl _) (Nat.le_refl _) (Nat.le_refl _)
          globals := fun w hw => (mem_retext hw).elim (h.globals w) visible_text
          table := fun w hw => (mem_retext hw).elim (h.table w) listed_text }

theorem storeVariable_moves (hx : storeVariable name value loc C.env s = .ok () s') (hfit : Fit C s pt)
    (hk : pt.KnowsAll C.rules (known value)) :
    ∃ pt', Moves C s pt C.cells s' pt' ∧ (C.rules.strict = false → Goes C true s pt s' pt') := by
  obtain ⟨v, s₁, hfind, hstore⟩ := bind_ok hx
  obtain ⟨rfl, hv⟩ := findVariable_ok hfind
  have hvis := hfit.visible hv
  by_cases hty : v.ty = value.dataType
  · simp only [hty, ne_eq, not_true_eq_false, if_false] at hstore
    -- a store of a value into a place of its kind
    have hassign : ∀ {pl s'}, placeOf? v.storage = some pl → storePlace pl value loc C.env s₁ = .ok () s' →
        ∃ pt', Moves C s₁ pt C.cells s' pt' ∧ (C.rules.strict = false → Goes C true s₁ pt s' pt') := by
      intro pl s' hpl hstore
      obtain ⟨ty, hvalue, hp⟩ := hvis pl hpl
      cases value with
      | nothing | literal | blockdef => exact (fail_ok hstore).elim
      | reg ty' =>
        have hsame : ty = ty' := by
          rw [hty] at hvalue
          exact (DataType.value.inj hvalue).symm
        subst hsame
        cases hstore
        have hmove := hfit.moves_assign hp (hk _ List.mem_cons_self)
        exact ⟨_, hmove, fun hlax => ⟨hmove.code, hfit.point.sub_stored hlax,
          ⟨rfl, rfl, rfl, Nat.le_refl _, id, Or.inl⟩, nofun, hmove.fit⟩⟩
    cases hstorage : v.storage with
    | slot | global =>
      simp only [hstorage] at hstore
      exact hassign (by rw [hstorage]; rfl) hstore
    | constant =>
      cases value with
      | literal =>
        simp only [hstorage] at hstore
        have hgo := hfit.goes_setConstant hv hstorage hstore
        exact ⟨pt, hgo.moves hfit, fun _ => hgo⟩
      | nothing | blockdef | reg => simp only [hstorage] at hstore; exact (fail_ok hstore).elim
  · simp only [hty, ne_eq, not_false_eq_true, if_true] at hstore
    exact (fail_ok hstore).elim

/-! ### Declaring -/

theorem required_requireRootScope (h : 0 < s.scopes.rootScopes.size) :
    required { s with scopes := s.scopes.requireRootScope } = true :=
  required_markDirty (s := s) h

theorem bones_requireRootScope (s : Scopes Body) : bones s.requireRootScope = bones s := by
  have hs := congrArg (fun t : Scopes Body => { t with locals := #[], slots := #[], slotsUsed := 0 })
    (skeleton_markDirty s)
  exact hs

structure SameVariables (s s' : LowerState) : Prop where
  locals : s'.scopes.locals = s.scopes.locals
  slots : s'.scopes.slots = s.scopes.slots
  used : s'.scopes.slotsUsed = s.scopes.slotsUsed
  roots : s'.scopes.rootScopes.size = s.scopes.rootScopes.size
  globals : s'.globals = s.globals
  cells : s'.cells = s.cells

theorem Fit.moves_dead (h : Fit C s .dead) (hs : Grown s s') (hv : SameVariables s s')
    (hcode : s.code.toList <+: s'.code.toList) : Moves C s .dead C.cells s' .dead where
  code := by
    obtain ⟨is, his⟩ := hcode
    exact ⟨is, his.symm, .dead⟩
  sub := trivial
  grown := hs
  table := prefix_rfl
  inner := fun _ => rfl
  fit :=
    { params := Nat.le_trans h.params hs.nextReg
      point := trivial
      slots := by rw [hv.slots]; exact h.slots
      used := by rw [hv.slots, hv.used]; exact h.used
      roots := by rw [hv.roots]; exact h.roots
      locals := fun v hmem => h.locals v (hv.locals ▸ hmem)
      globals := fun v hmem => h.globals v (hv.globals ▸ hmem)
      cells := h.cells.trans hv.cells.symm
      table := fun v hmem => h.table v (hv.globals ▸ hmem) }

theorem Fit.moves_declared (h : Fit C s (.body f)) (hs : Grown s s') (hv : SameVariables s s')
    (hcode : ∃ is, s'.code.toList = s.code.toList ++ is ∧ Flows C.rules (roomAt C s') (.body f) is (.body g))
    (hnone : f.places pl = none) (hpl : Taken s pl) (hplaces : g.places = ((f.stored C.rules).declare pl heap).places)
    (hkeep : ∀ r w, (f.stored C.rules).regs r = some w → g.regs r = some w)
    (hregs : ∀ r w, g.regs r = some w → r < s'.nextReg) (hfresh : g.fresh = none) (hlevel : f.level = g.level) :
    Moves C s (.body f) C.cells s' (.body g) := by
  have hat : ∀ x, g.places x = if x = pl then some heap else f.places x := fun x => by
    rw [hplaces, Facts.declare, Facts.stored_places]
  have hold : ∀ x b, f.places x = some b → g.places x = some b := by
    intro x b hx
    have hne : x ≠ pl := by
      rintro rfl
      rw [hnone] at hx
      cases hx
    rw [hat, if_neg hne, hx]
  have hvis : ∀ v, Visible (.body f) v → Visible (.body g) v := fun v hv x hx =>
    let ⟨ty, hty, hp⟩ := hv x hx
    ⟨ty, hty, hold x _ hp⟩
  have htaken : ∀ x, Taken s x → Taken s' x := by
    intro x hx
    cases x with
    | slot => simpa only [Taken, hv.used] using hx
    | global => simpa only [Taken, hv.cells] using hx
  exact
    { code := hcode
      sub := ⟨⟨fun r w hr => hkeep r w ((Facts.settle_within_stored (f := f)).regs r w hr), hold⟩, hlevel⟩
      grown := hs
      table := prefix_rfl
      inner := fun _ => rfl
      fit :=
        { params := Nat.le_trans h.params hs.nextReg
          point := by
            refine ⟨hregs, fun x b hx => htaken x ?_, hfresh⟩
            rw [hat] at hx
            by_cases hne : x = pl
            · rw [hne]
              exact hpl
            · rw [if_neg hne] at hx
              exact h.bounded.places x b hx
          slots := by rw [hv.slots]; exact h.slots
          used := by rw [hv.slots, hv.used]; exact h.used
          roots := by rw [hv.roots]; exact h.roots
          locals := fun v hmem => hvis v (h.locals v (hv.locals ▸ hmem))
          globals := fun v hmem => hvis v (h.globals v (hv.globals ▸ hmem))
          cells := h.cells.trans hv.cells.symm
          table := fun v hmem => h.table v (hv.globals ▸ hmem) } }

def registered (s : LowerState) (pl : Place) (r : Reg) : LowerState :=
  { s with
    scopes := s.scopes.requireRootScope
    code := ((s.code.push (.store pl r)).push (.address s.nextReg pl)).push
      (.entry (s.nextReg + 1) .addRoot [s.nextReg])
    nextReg := s.nextReg + 2 }

theorem grown_registered (h : 0 < s.scopes.rootScopes.size) (pl : Place) (r : Reg) : Grown s (registered s pl r) where
  scopes := bones_requireRootScope s.scopes
  locals := prefix_rfl
  slots := Nat.le_refl _
  used := Nat.le_refl _
  globals := fun _ => rfl
  nextReg := Nat.le_add_right s.nextReg 2
  required := fun _ => required_requireRootScope h
  dirty := fun hd => Or.inl hd

theorem sameVariables_registered (s : LowerState) (pl : Place) (r : Reg) : SameVariables s (registered s pl r) :=
  ⟨rfl, rfl, rfl, by simp [registered, requireRootScope], rfl, rfl⟩

def Facts.registered (f : Facts) (c : Rules) (pl : Place) (d : Reg) : Facts :=
  { ((((f.stored c).await pl).put d (.place pl)).put (d + 1) .plain).declare pl true with fresh := none }

theorem Facts.registered_regs (h : (f.registered c pl d).regs r = some w) :
    r = d ∨ r = d + 1 ∨ (f.stored c).regs r = some w := by
  simp only [registered, declare, put, await] at h
  split at h
  · exact Or.inr (Or.inl ‹_›)
  · split at h
    · exact Or.inl ‹_›
    · exact Or.inr (Or.inr h)

theorem Facts.registered_places : (f.registered c pl d).places = ((f.stored c).declare pl true).places := by
  funext x
  simp only [registered, declare, put, await]
  split <;> rfl

theorem Facts.registered_flows (hfresh : f.fresh = none) (hr : f.Knows c r .heap) (hb : b.framed = true)
    (hmay : f.MayDeclare c b pl true) (hd : c.params ≤ d) (hroom : d < b.registers) :
    Flows c b (.body f) [.store pl r, .address d pl, .entry (d + 1) .addRoot [d]] (.body (f.registered c pl d)) := by
  refine .step (.declareHeap hfresh hr hb hmay) (.step (.address rfl hd hroom) (.step ?_ .nil))
  exact .register rfl (Nat.le_succ_of_le hd) (if_pos rfl) hb

theorem Fit.moves_initialise (h : Fit C s pt) (hr : pt.Knows C.rules r (wordOf ty)) (hpl : Taken s pl)
    (hnew : ∀ f, pt = .body f → f.places pl = none ∧ f.MayDeclare C.rules (roomAt C s) pl ty.isHeap)
    (hx : initialise pl ty r C.env s = .ok () s') : ∃ pt', Moves C s pt C.cells s' pt' ∧ pt'.Has pl ty.isHeap := by
  cases hty : ty.isHeap with
  | false =>
    have hword : wordOf ty = .plain := by simp [wordOf, hty]
    simp only [initialise, hty] at hx
    cases hx
    cases pt with
    | left => exact h.point.elim
    | dead => exact ⟨.dead, (h.goes_emitted h.sub_refl trivial .dead).moves h, trivial⟩
    | body f =>
      obtain ⟨hregs, -, hfresh⟩ := h.bounded
      obtain ⟨hnone, hmay⟩ := hnew f rfl
      rw [hword] at hr
      rw [hty] at hmay
      refine ⟨.body ((f.stored C.rules).declare pl false), ?_, if_pos rfl⟩
      exact h.moves_declared (Stable.grown ⟨rfl, rfl, rfl, Nat.le_refl _, id, Or.inl⟩) ⟨rfl, rfl, rfl, rfl, rfl, rfl⟩
        ⟨[.store pl r], by simp, .step (.declarePlain hfresh hr hmay) .nil⟩ hnone hpl rfl
        (fun _ _ hx => hx) (fun x w hx => hregs x w (Facts.stored_regs hx))
        (Facts.stored_fresh.trans hfresh) (Facts.stored_level (f := f)).symm
  | true =>
    have hword : wordOf ty = .heap := by simp [wordOf, hty]
    have hrun : initialise pl ty r C.env s = .ok () (registered s pl r) := by
      simp only [initialise, hty]
      rfl
    cases hrun.symm.trans hx
    have hgrown := grown_registered h.roots pl r
    cases pt with
    | left => exact h.point.elim
    | dead =>
      exact ⟨.dead, h.moves_dead hgrown (sameVariables_registered s pl r)
        ⟨[.store pl r, .address s.nextReg pl, .entry (s.nextReg + 1) .addRoot [s.nextReg]],
          by simp [registered]⟩, trivial⟩
    | body f =>
      obtain ⟨hregs, -, hfresh⟩ := h.bounded
      obtain ⟨hnone, hmay⟩ := hnew f rfl
      rw [hword] at hr
      rw [hty] at hmay
      have hroom : (roomAt C s).Le (roomAt C (registered s pl r)) :=
        ⟨hgrown.required, hgrown.nextReg, hgrown.slots, prefix_rfl⟩
      have hold : ∀ x w, (f.stored C.rules).regs x = some w → x < s.nextReg := fun x w hx =>
        hregs x w (Facts.stored_regs hx)
      refine ⟨.body (f.registered C.rules pl s.nextReg), ?_, if_pos rfl⟩
      refine h.moves_declared hgrown (sameVariables_registered s pl r) ⟨_, ?_,
        Facts.registered_flows hfresh hr (required_requireRootScope h.roots) (hmay.mono hroom) h.params
          (Nat.lt_add_of_pos_right Nat.two_pos)⟩ hnone hpl Facts.registered_places ?_ ?_ rfl
        (Facts.stored_level (f := f)).symm
      · simp [registered]
      · intro x w hx
        have hlt := hold x w hx
        have hne : x ≠ s.nextReg + 1 := Nat.ne_of_lt (Nat.lt_succ_of_lt hlt)
        have hne' : x ≠ s.nextReg := Nat.ne_of_lt hlt
        simpa only [Facts.registered, Facts.declare, Facts.put, Facts.await, hne, hne', if_false] using hx
      · intro x w hx
        rcases Facts.registered_regs hx with rfl | rfl | hx
        · exact Nat.lt_add_of_pos_right Nat.two_pos
        · exact Nat.lt_succ_self _
        · exact Nat.lt_add_right 2 (hold x w hx)

theorem takeSlot_ok (hid : ∀ i j : Nat, s.scopes.slots[i]? = some j → j = i)
    (hused : s.scopes.slotsUsed ≤ s.scopes.slots.size) (hx : takeSlot env s = .ok i s') :
    i = s.scopes.slotsUsed ∧ ∃ slots : Array Nat,
      s' = { s with scopes := { s.scopes with slots, slotsUsed := s.scopes.slotsUsed + 1 } } ∧
      (∀ i j : Nat, slots[i]? = some j → j = i) ∧ s.scopes.slotsUsed + 1 ≤ slots.size ∧
      s.scopes.slots.size ≤ slots.size := by
  obtain ⟨reused, s₁, hreuse, hx⟩ := bind_ok hx
  simp only [tryScopes, reuseSlot] at hreuse
  cases hslot : s.scopes.slots[s.scopes.slotsUsed]? with
  | some =>
    rw [hslot] at hreuse
    cases hreuse
    cases hx
    have hlt : s.scopes.slotsUsed < s.scopes.slots.size := (Array.getElem?_eq_some_iff.mp hslot).1
    exact ⟨hid _ _ hslot, s.scopes.slots, rfl, hid, hlt, Nat.le_refl _⟩
  | none =>
    rw [hslot] at hreuse
    cases hreuse
    cases hx
    have hall : s.scopes.slotsUsed = s.scopes.slots.size :=
      Nat.le_antisymm hused (Array.getElem?_eq_none_iff.mp hslot)
    have hshrink : s.scopes.slots.shrink s.scopes.slotsUsed = s.scopes.slots := by
      rw [hall]
      simp
    refine ⟨hall.symm, s.scopes.slots.push s.scopes.slots.size, ?_, ?_, ?_, ?_⟩
    · simp only [addSlot, hshrink]
    · intro k j hk
      rw [Array.getElem?_push] at hk
      split at hk
      · rename_i heq
        rw [heq]
        exact (Option.some.inj hk).symm
      · exact hid k j hk
    · simp [hall]
    · simp

theorem Fit.moves_takeSlot (h : Fit C s pt) (hx : takeSlot C.env s = .ok i s') :
    i = s.scopes.slotsUsed ∧ i < s'.scopes.slotsUsed ∧ i < s'.scopes.slots.size ∧ Moves C s pt C.cells s' pt := by
  obtain ⟨rfl, slots, rfl, hid, hfits, hgrow⟩ := takeSlot_ok h.slots h.used hx
  have htaken : ∀ x, Taken s x → Taken
      { s with scopes := { s.scopes with slots, slotsUsed := s.scopes.slotsUsed + 1 } } x := by
    intro x hx
    cases x with
    | slot => exact Nat.lt_succ_of_lt hx
    | global => exact hx
  refine ⟨rfl, Nat.lt_succ_self _, hfits, ?_⟩
  exact
    { code := ⟨[], (append_nil _).symm, .nil⟩
      sub := h.point.settle_sub
      grown :=
        { scopes := rfl
          locals := prefix_rfl
          slots := hgrow
          used := Nat.le_succ _
          globals := fun _ => rfl
          nextReg := Nat.le_refl _
          required := id
          dirty := Or.inl }
      table := prefix_rfl
      inner := fun _ => rfl
      fit :=
        { h with
          point := by
            cases pt with
            | dead => trivial
            | left => exact h.point.elim
            | body => exact ⟨h.bounded.regs, fun x b hb => htaken x (h.bounded.places x b hb), h.bounded.fresh⟩
          slots := hid
          used := hfits } }

theorem Fit.moves_takeCell (heap : Bool) (h : Fit C s pt) (hdepth : s.scopes.controlDepth = 0)
    (hx : takeCell C.env s = .ok i s') :
    i = s.cells ∧ s' = { s with cells := s.cells + 1 } ∧ Moves C s pt (C.cells ++ [heap]) s' pt := by
  cases hx
  refine ⟨rfl, rfl, ?_⟩
  exact
    { code := ⟨[], (append_nil _).symm, .nil⟩
      sub := h.point.settle_sub
      grown := ⟨rfl, prefix_rfl, Nat.le_refl _, Nat.le_refl _, fun _ => rfl, Nat.le_refl _, id, Or.inl⟩
      table := List.prefix_append _ _
      inner := fun hd => by rw [hdepth] at hd; cases hd
      fit :=
        { h with
          point := by
            cases pt with
            | dead => trivial
            | left => exact h.point.elim
            | body =>
              refine ⟨h.bounded.regs, fun x b hb => ?_, h.bounded.fresh⟩
              have hx := h.bounded.places x b hb
              cases x with
              | slot => exact hx
              | global => exact Nat.lt_succ_of_lt hx
          cells := by simp [Context.withCells, h.cells]
          table := fun v hv => (h.table v hv).mono (List.prefix_append _ _) } }

theorem Fit.moves_bind (h : Fit C s pt) (hv : Visible pt v)
    (hglobal : global = true → s.scopes.controlDepth = 0 ∧ Listed C.cells v)
    (hx : bindVariable v global C.env s = .ok () s') : Moves C s pt C.cells s' pt := by
  cases global with
  | false =>
    cases hx
    exact
      { code := ⟨[], (append_nil _).symm, .nil⟩
        sub := h.point.settle_sub
        grown :=
          { scopes := rfl
            locals := by simp [declare]
            slots := Nat.le_refl _
            used := Nat.le_refl _
            globals := fun _ => rfl
            nextReg := Nat.le_refl _
            required := id
            dirty := Or.inl }
        table := prefix_rfl
        inner := fun _ => rfl
        fit :=
          { h with
            point := h.point.mono (Nat.le_refl _) (Nat.le_refl _) (Nat.le_refl _)
            locals := fun w hw => (Array.mem_push.mp hw).elim (h.locals w) fun he => he ▸ hv } }
  | true =>
    obtain ⟨hdepth, hcell⟩ := hglobal rfl
    cases hx
    exact
      { code := ⟨[], (append_nil _).symm, .nil⟩
        sub := h.point.settle_sub
        grown :=
          { scopes := rfl
            locals := prefix_rfl
            slots := Nat.le_refl _
            used := Nat.le_refl _
            globals := fun hd => by rw [hdepth] at hd; cases hd
            nextReg := Nat.le_refl _
            required := id
            dirty := Or.inl }
        table := prefix_rfl
        inner := fun _ => rfl
        fit :=
          { h with
            point := h.point.mono (Nat.le_refl _) (Nat.le_refl _) (Nat.le_refl _)
            globals := fun w hw => (Array.mem_push.mp hw).elim (h.globals w) fun he => he ▸ hv
            table := fun w hw => (Array.mem_push.mp hw).elim (h.table w) fun he => he ▸ hcell } }

def AtTop (C : Context) (s : LowerState) (pt : Point) : Prop :=
  C.env.kind = .main → s.scopes.controlDepth = 0 → ∀ f, pt = .body f → f.level = .top

theorem visible_declared (hs : placeOf? storage = some pl) (hp : pt.Has pl ty.isHeap) :
    Visible pt ⟨name, .value ty, storage⟩ := fun x hx => by
  rw [hs] at hx
  cases hx
  exact ⟨ty, rfl, hp⟩

theorem declareVariable_moves (hx : declareVariable name value loc C.env s = .ok () s') (hfit : Fit C s pt)
    (hk : pt.KnowsAll C.rules (known value)) (htop : AtTop C s pt) : ∃ cells pt', Moves C s pt cells s' pt' := by
  obtain ⟨global, s₁, hread, hdecl⟩ := bind_ok hx
  obtain ⟨hglobal, rfl⟩ : global = (C.env.kind == .main && s.scopes.controlDepth == 0) ∧ s₁ = s := by
    cases hread
    exact ⟨rfl, rfl⟩
  have houter : global = true → C.env.kind = .main ∧ s₁.scopes.controlDepth = 0 := fun hg => by
    rw [hg] at hglobal
    simpa using hglobal.symm
  cases value with
  | nothing | blockdef => exact (fail_ok hdecl).elim
  | literal =>
    exact ⟨C.cells, pt, hfit.moves_bind (visible_text rfl) (fun hg => ⟨(houter hg).2, listed_text rfl⟩) hdecl⟩
  | reg ty r =>
    have hr : pt.Knows C.rules r (wordOf ty) := hk _ List.mem_cons_self
    cases global with
    | true =>
      obtain ⟨hmain, hdepth⟩ := houter rfl
      obtain ⟨i, s₂, htake, hrest⟩ := bind_ok hdecl
      obtain ⟨⟨⟩, s₃, hinit, hbind⟩ := bind_ok hrest
      obtain ⟨rfl, rfl, hcell⟩ := hfit.moves_takeCell ty.isHeap hdepth htake
      have hindex : (C.cells ++ [ty.isHeap])[s₁.cells]? = some ty.isHeap := by
        rw [← hfit.cells]
        simp
      have hnew : ∀ f, pt = .body f → f.places (.global s₁.cells) = none := fun f hf => by
        subst hf
        cases hplace : f.places (.global s₁.cells) with
        | none => rfl
        | some b => exact (Nat.lt_irrefl _ (hfit.bounded.places _ b hplace)).elim
      obtain ⟨pt', hvar, hp⟩ := hcell.fit.moves_initialise hr (Nat.lt_succ_self _) (fun f hf =>
        ⟨hnew f hf, C.main.mpr hmain, htop hmain hdepth f hf, hindex⟩) hinit
      have hdepth' : s₃.scopes.controlDepth = 0 := by
        simp only [controlDepth, hvar.grown.control]
        exact hdepth
      have hlisted : Listed (C.cells ++ [ty.isHeap]) ⟨name, .value ty, .global s₁.cells⟩ :=
        fun pl hpl => ⟨s₁.cells, ty, (Option.some.inj hpl).symm, rfl, hindex⟩
      have hlast := hvar.fit.moves_bind (visible_declared rfl hp) (fun _ => ⟨hdepth', hlisted⟩) hbind
      exact ⟨_, pt', hcell.trans hfit (hvar.trans hcell.fit hlast)⟩
    | false =>
      obtain ⟨i, s₂, htake, hrest⟩ := bind_ok hdecl
      obtain ⟨⟨⟩, s₃, hinit, hbind⟩ := bind_ok hrest
      obtain ⟨rfl, htaken, hroom, hslot⟩ := hfit.moves_takeSlot htake
      have hnew : ∀ f, pt = .body f → f.places (.slot s₁.scopes.slotsUsed) = none := fun f hf => by
        subst hf
        cases hplace : f.places (.slot s₁.scopes.slotsUsed) with
        | none => rfl
        | some b => exact (Nat.lt_irrefl _ (hfit.bounded.places _ b hplace)).elim
      have hplace : Taken s₂ (.slot s₁.scopes.slotsUsed) := htaken
      obtain ⟨pt', hvar, hp⟩ := hslot.fit.moves_initialise hr hplace (fun f hf => ⟨hnew f hf, hroom⟩) hinit
      have hlast := hvar.fit.moves_bind (visible_declared rfl hp) (fun hg => by cases hg) hbind
      exact ⟨_, pt', hslot.trans hfit (hvar.trans hslot.fit hlast)⟩

end Blockwork.Flow
