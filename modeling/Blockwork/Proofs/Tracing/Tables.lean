import Blockwork.Proofs.Tracing.Scoped
import Blockwork.Proofs.Trimming.Mirror

/-! # Tables of variables
The tables of lowering have the names that names stand for, in the same order with the same texts, and
slots and cells handed out in the order of declaration. -/

namespace Blockwork.Tracing

open Lower
open Flow (stack retext)

def storedIn (bs : List Binding) : List Stored :=
  (bs.filterMap Binding.stored?).reverse

theorem storedIn_cons (b : Binding) (bs : List Binding) : storedIn (b :: bs) = storedIn bs ++ b.stored?.toList := by
  unfold storedIn
  cases hb : b.stored? with
  | none | some => simp [hb]

theorem storedIn_append (as bs : List Binding) : storedIn (as ++ bs) = storedIn bs ++ storedIn as := by
  simp [storedIn, List.filterMap_append]

def shape (bs : List Binding) : List (Option Stored) :=
  bs.map Binding.stored?

theorem storedIn_of_shape (h : shape bs = shape bs') : storedIn bs = storedIn bs' := by
  have hfilter : ∀ l : List Binding, l.filterMap Binding.stored? = (shape l).filterMap id := by
    intro l
    simp [shape, List.filterMap_map]
  rw [storedIn, storedIn, hfilter, hfilter, h]

theorem length_of_shape (h : shape bs = shape bs') : bs.length = bs'.length := by
  have hlength := congrArg List.length h
  simpa [shape] using hlength

namespace Names

open Bindings (retextIn)

variable {name text : String}

theorem retext_append (as bs : List Binding) : Bindings.retext name text (as ++ bs) =
      if as.any (·.name == name) then Bindings.retext name text as ++ bs
      else as ++ Bindings.retext name text bs := by
  induction as with
  | nil => rfl
  | cons a as ih =>
    cases ha : a.name == name with
    | true => simp [Bindings.retext, ha]
    | false =>
      rw [List.cons_append, Bindings.retext, if_neg (by simp [ha]), ih]
      cases hany : as.any (·.name == name) with
      | true => simp only [List.any_cons, hany, ha, Bindings.retext, Bool.or_true, if_true, Bool.false_eq_true,
          if_false, List.cons_append]
      | false => simp only [List.any_cons, hany, ha, Bool.or_self, Bool.false_eq_true, if_false, List.cons_append]

theorem flatten_retextIn (bss : List (List Binding)) :
    (retextIn name text bss).flatten = Bindings.retext name text bss.flatten := by
  induction bss with
  | nil => rfl
  | cons bs rest ih =>
    rw [List.flatten_cons, retext_append, retextIn]
    split
    · rfl
    · rw [List.flatten_cons, ih]

def IsText (name : String) (bs : List Binding) : Prop :=
  ∀ b, bs.find? (·.name == name) = some b → ∃ t, b.held = .text t

theorem shape_retext (h : IsText name bs) : shape (Bindings.retext name text bs) = shape bs := by
  induction bs with
  | nil => rfl
  | cons b bs ih =>
    cases hb : b.name == name with
    | true =>
      obtain ⟨t, ht⟩ := h b (by simp [hb])
      simp [Bindings.retext, hb, shape, Binding.stored?, ht]
    | false =>
      have hrest : IsText name bs := fun c hc => h c (by simpa [hb] using hc)
      have hshape := ih hrest
      simp only [Bindings.retext, hb, shape, List.map_cons] at hshape ⊢
      simp [hshape]

theorem IsText.left (h : IsText name (as ++ bs)) : IsText name as := by
  intro b hb
  exact h b (by rw [List.find?_append, hb]; rfl)

theorem IsText.right (h : IsText name (as ++ bs)) (has : as.any (·.name == name) = false) : IsText name bs := by
  intro b hb
  refine h b ?_
  have hnone : as.find? (·.name == name) = none := by
    rw [List.find?_eq_none]
    intro x hx
    have hall := List.any_eq_false.mp has x hx
    exact hall
  rw [List.find?_append, hnone]
  exact hb

theorem shape_retextIn (h : IsText name bss.flatten) : (retextIn name text bss).map shape = bss.map shape := by
  induction bss with
  | nil => rfl
  | cons bs rest ih =>
    rw [List.flatten_cons] at h
    rw [retextIn]
    cases hany : bs.any (·.name == name) with
    | true => simp [shape_retext h.left]
    | false => simp [ih (h.right hany)]

end Names

def framesOf : List (List Binding) → List Binding → List VariableFrame
  | [], _ => []
  | _ :: outer, own =>
    ⟨(outer.flatten ++ own).length, (storedIn (outer.flatten ++ own)).length⟩ :: framesOf outer own

def outerLocals : List (List Binding) → List Binding → List (List Stored)
  | [], _ => []
  | _ :: outer, own => storedIn (outer.flatten ++ own) :: outerLocals outer own

theorem shape_flatten (bss : List (List Binding)) : shape bss.flatten = (bss.map shape).flatten :=
  List.map_flatten

theorem shape_append (as bs : List Binding) : shape (as ++ bs) = shape as ++ shape bs := by
  simp [shape]

theorem scopes_of_shape (h : bss.map shape = bss'.map shape) (hown : shape own = shape own') :
    framesOf bss own = framesOf bss' own' ∧ outerLocals bss own = outerLocals bss' own' := by
  induction bss generalizing bss' with
  | nil =>
    cases bss' with
    | nil => exact ⟨rfl, rfl⟩
    | cons => cases h
  | cons bs rest ih =>
    cases bss' with
    | nil => cases h
    | cons bs' rest' =>
      obtain ⟨-, hrest⟩ := List.cons.inj h
      obtain ⟨hframes, houter⟩ := ih hrest
      have hshape : shape (rest.flatten ++ own) = shape (rest'.flatten ++ own') := by
        rw [shape_append, shape_append, shape_flatten, shape_flatten, hrest, hown]
      simp only [framesOf, outerLocals, hframes, houter, storedIn_of_shape hshape, length_of_shape hshape, and_self]

theorem length_framesOf (bss : List (List Binding)) (own : List Binding) :
    (framesOf bss own).length = bss.length := by
  induction bss with
  | nil => rfl
  | cons bs rest ih => simp [framesOf, ih]

/-! ### Names and variables -/

def Agrees (place : Nat → Storage) (n : Nat) (v : Variable) : Held → Prop
  | .text t => v.ty = .literal ∧ v.storage = .constant t
  | .stored x => v.ty = .value x.ty ∧ v.storage = place n

inductive Matches (place : Nat → Storage) : List Variable → List Binding → Prop where
  | nil : Matches place [] []
  | cons {v : Variable} {vs : List Variable} {b : Binding} {bs : List Binding} : v.name = b.name →
      Agrees place (storedIn bs).length v b.held → Matches place vs bs → Matches place (v :: vs) (b :: bs)

def retextFirst (name text : String) : List Variable → List Variable
  | [] => []
  | v :: vs =>
    if v.name == name then { v with storage := .constant text } :: vs else v :: retextFirst name text vs

namespace Matches

variable {place : Nat → Storage} {vs : List Variable} {bs : List Binding} {name : String}

theorem length_eq (h : Matches place vs bs) : vs.length = bs.length := by
  induction h with
  | nil => rfl
  | cons _ _ _ ih => simp [ih]

theorem drop (h : Matches place vs bs) (n : Nat) : Matches place (vs.drop n) (bs.drop n) := by
  induction n generalizing vs bs with
  | zero => exact h
  | succ n ih =>
    cases h with
    | nil => exact .nil
    | cons _ _ hrest => exact ih hrest

theorem find_none (h : Matches place vs bs) (hv : vs.find? (·.name == name) = none) :
    bs.find? (·.name == name) = none := by
  induction h with
  | nil => rfl
  | @cons v vs b bs hname _ _ ih =>
    rw [List.find?_cons] at hv ⊢
    rw [← hname]
    cases hb : v.name == name with
    | true => simp [hb] at hv
    | false =>
      rw [hb] at hv
      exact ih hv

theorem find (h : Matches place vs bs) (hv : vs.find? (·.name == name) = some v) :
    ∃ b i, bs.find? (·.name == name) = some b ∧ Agrees place i v b.held ∧
      ∀ x, b.held = .stored x → (storedIn bs)[i]? = some x := by
  induction h with
  | nil => cases hv
  | @cons w vs b bs hname hagrees _ ih =>
    rw [List.find?_cons] at hv ⊢
    rw [← hname]
    cases hb : w.name == name with
    | true =>
      rw [hb] at hv
      cases hv
      refine ⟨b, (storedIn bs).length, rfl, hagrees, fun x hx => ?_⟩
      simp [storedIn_cons, Binding.stored?, hx]
    | false =>
      rw [hb] at hv
      obtain ⟨c, i, hc, hagrees', hat⟩ := ih hv
      refine ⟨c, i, hc, hagrees', fun x hx => ?_⟩
      have hi := hat x hx
      rw [storedIn_cons, List.getElem?_append_left (List.getElem?_eq_some_iff.mp hi).1, hi]

theorem retext (h : Matches place vs bs) (htext : Names.IsText name bs) (text : String) :
    Matches place (retextFirst name text vs) (Bindings.retext name text bs) := by
  induction h with
  | nil => exact .nil
  | @cons v vs b bs hname hagrees hrest ih =>
    cases hb : v.name == name with
    | true =>
      obtain ⟨t, ht⟩ := htext b (by simp [← hname, hb])
      rw [ht] at hagrees
      rw [retextFirst, Bindings.retext, if_pos hb, if_pos (hname ▸ hb)]
      exact .cons hname ⟨hagrees.1, rfl⟩ hrest
    | false =>
      rw [retextFirst, Bindings.retext, if_neg (by simp [hb]), if_neg (by simp [← hname, hb])]
      have hrestText : Names.IsText name bs := fun c hc => htext c (by
        rw [List.find?_cons, ← hname, hb]
        exact hc)
      refine .cons hname ?_ (ih hrestText)
      rw [storedIn_of_shape (Names.shape_retext hrestText)]
      exact hagrees

end Matches

theorem modify_findIdx : ∀ {vs : List Variable} {j : Nat}, vs.findIdx? (·.name == name) = some j →
    vs.modify j (fun v => { v with storage := .constant text }) = retextFirst name text vs
  | [], _, h => by simp at h
  | v :: vs, j, h => by
    rw [List.findIdx?_cons] at h
    rw [retextFirst]
    cases hv : v.name == name with
    | true =>
      rw [hv] at h
      cases h
      rfl
    | false =>
      rw [hv] at h
      simp only [Bool.false_eq_true, if_false] at h
      obtain ⟨i, hi, rfl⟩ := Option.map_eq_some_iff.mp h
      simp only [Bool.false_eq_true, if_false]
      rw [List.modify_succ_cons, modify_findIdx hi]

theorem reverse_modify {α : Type} (l : List α) (f : α → α) (hj : j < l.length) :
    (l.modify (l.length - 1 - j) f).reverse = l.reverse.modify j f := by
  apply List.ext_getElem?
  intro k
  by_cases hk : k < l.length
  · rw [List.getElem?_reverse (by simpa using hk), List.getElem?_modify, List.getElem?_modify,
      List.getElem?_reverse hk, List.length_modify]
    have hiff : l.length - 1 - j = l.length - 1 - k ↔ j = k := by omega
    simp [hiff]
  · have hge : l.length ≤ k := Nat.not_lt.mp hk
    rw [List.getElem?_eq_none (by simpa using hge), List.getElem?_eq_none (by simpa using hge)]

theorem stack_retext (h : Scopes.lastNamed? vs name = some i) :
    stack (retext vs i text) = retextFirst name text (stack vs) := by
  unfold Scopes.lastNamed? at h
  obtain ⟨j, hj, rfl⟩ := Option.map_eq_some_iff.mp h
  have hlt : j < vs.toList.length := by
    have hbound := (List.findIdx?_eq_some_iff_getElem.mp hj).1
    simpa using hbound
  have hmodify := reverse_modify vs.toList (fun v : Variable => { v with storage := .constant text }) hlt
  have hsize : vs.toList.length = vs.size := rfl
  rw [hsize] at hmodify
  rw [stack, retext, Array.toList_modify, hmodify]
  exact modify_findIdx hj

end Blockwork.Tracing
