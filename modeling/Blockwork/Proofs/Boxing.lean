import Blockwork.Proofs.Evaluation

/-! # Values in boxes
What a box holds is cast as the value itself is, but for a truth value cast to a color, and for a string of bytes that
begin no letter cast to a truth value. -/

namespace Blockwork

/-- The values of a type that casts work on. -/
inductive Value.Plain : ValueType → Value → Prop where
  | integer (v : Int64) : Plain .integer (.integer v)
  | float (v : Float) : Plain .float (.float v)
  | bool (v : Bool) : Plain .bool (.bool v)
  | color (v : Int64) : Plain .color (.color v)
  | string (p : Pointer) : Plain .string (.string p)

/-- What a boxed value is as a value of another type. -/
def Session.castOf (s : Session) (b : Boxed) : ValueType → Value
  | .integer => .integer (s.integerOf b)
  | .float => .float (s.floatOf b)
  | .bool => .bool (s.boolOf b)
  | .color => .color (s.colorOf b)
  | _ => .zero

open Session

namespace Session

variable {s s' : Session}

theorem castOf_congr (h : ∀ p, b = .string p → s'.bytes p = s.bytes p) (target : ValueType) :
    s'.castOf b target = s.castOf b target := by
  cases b with
  | string p => cases target <;> simp [castOf, integerOf, floatOf, boolOf, colorOf, h p rfl]
  | _ => cases target <;> rfl

@[simp] theorem reading_castOf (s : Session) (b : Boxed) (target : ValueType) (s' : Session) :
    s'.reading (s.castOf b target) = s.castOf b target := by
  cases target <;> rfl

theorem allocAny_granted (hm : s.memory.Sound) (hb : b ≠ .nothing) (hsafe : ∀ p ∈ b.pointers, s.memory.Safe p)
    (h : s.allocAny b = (q, s')) :
    s'.memory.Sound ∧
      (s'.abort.isSome = true ∨ s'.boxed q = b ∧ ∀ target, s'.castOf b target = s.castOf b target) := by
  simp only [allocAny, if_neg hb] at h
  obtain ⟨hafter, hkept, hnew⟩ := allocOr_keeps hm (fun p hp => hsafe p (Heap.refers_any.mp hp)) (by rintro _ ⟨⟩) h
  refine ⟨hafter.sound, hnew.imp_right fun hq => ⟨?_, castOf_congr fun p hp => ?_⟩⟩
  · unfold boxed Heap.boxed
    rw [hq.2]
  · by_cases hnull : p = .null
    · rw [hnull]
      rfl
    · exact bytes_congr (hkept p (hsafe p (hp ▸ Heap.mem_pointers_string.mpr ⟨hnull, rfl⟩)))

theorem isNonzero_length (h : Text.length (s.bytes p) = 0 → s.bytes p = []) :
    (Text.length (s.bytes p) != 0) = s.boolOf (.string p) := by
  by_cases hzero : Text.length (s.bytes p) = 0
  · simp [boolOf, h hzero]
    rfl
  · have hne : s.bytes p ≠ [] := by
      intro hnil
      rw [hnil] at hzero
      exact hzero rfl
    rw [(bne_iff_ne).mpr hzero]
    simp [boolOf, hne]

end Session

namespace Lower

variable {s : Session} {held : Reg → Value} {n r : Reg} {v : Value} {ty target : ValueType} {loc : Location}

section Direct

variable (hv : v.Plain ty) (hr : held r = v)

include hv hr

theorem toInteger_comes : Yields (toInteger (.reg ty r) loc) n s held (Comes (s.castOf (s.elementOf v) .integer)) := by
  cases hv with
  | integer => exact .pure (Or.inr hr)
  | float | bool | color => exact .unary _ r (Comes.written (by rw [hr]; rfl))
  | string => exact .call .stringToInteger [r] (Comes.written (by rw [List.map_singleton, hr]; rfl))

theorem toFloat_comes : Yields (toFloat (.reg ty r) loc) n s held (Comes (s.castOf (s.elementOf v) .float)) := by
  cases hv with
  | integer => exact .unary _ r (Comes.written (by rw [hr]; rfl))
  | float => exact .pure (Or.inr hr)
  | bool => exact .bind (.unary _ r (.unary _ n (Comes.written (by rw [Function.update_self, hr]; rfl))))
  | color => exact .unary _ r (Comes.written (by rw [hr]; rfl))
  | string => exact .call .stringToFloat [r] (Comes.written (by rw [List.map_singleton, hr]; rfl))

theorem toBool_comes (hcolor : ty ≠ .color)
    (hletters : ty = .string → Text.length (s.bytes v.pointer) = 0 → s.bytes v.pointer = []) :
    Yields (toBool (.reg ty r) loc) n s held (Comes (s.castOf (s.elementOf v) .bool)) := by
  cases hv with
  | integer | float => exact .unary _ r (Comes.written (by rw [hr]; rfl))
  | bool => exact .pure (Or.inr hr)
  | color => exact absurd rfl hcolor
  | string =>
    refine .bind (.call _ [r] (.unary _ n (Comes.written ?_)))
    rw [Function.update_self, List.map_singleton, hr]
    exact congrArg Value.bool (isNonzero_length (hletters rfl))

theorem toAny_comes (hm : s.memory.Sound) (hsafe : s.memory.Safe v.pointer) :
    Yields (toAny (.reg ty r) loc) n s held fun d _ s' held' => s'.abort.isSome = true ∨
      s'.boxed (held' d).pointer = s.elementOf v ∧
        ∀ target, s'.castOf (s.elementOf v) target = s.castOf (s.elementOf v) target := by
  have hcall : ∀ e : Entry, e.run [v] s = anyResult (s.allocAny (s.elementOf v)) →
      Yields (call e [r]) n s held fun d _ s' held' => s'.abort.isSome = true ∨
        s'.boxed (held' d).pointer = s.elementOf v ∧
          ∀ target, s'.castOf (s.elementOf v) target = s.castOf (s.elementOf v) target := by
    intro e he
    refine .call e [r] ?_
    rw [List.map_singleton, hr, he, Function.update_self]
    refine (allocAny_granted hm ?_ (fun p hp => ?_) rfl).2
    · cases hv <;> nofun
    · cases hv with
      | string =>
        obtain ⟨-, rfl⟩ := Heap.mem_pointers_string.mp hp
        exact hsafe
      | _ => cases hp
  cases hv with
  | integer => exact hcall .anyFromInteger rfl
  | float => exact hcall .anyFromFloat rfl
  | bool => exact hcall .anyFromBool rfl
  | color => exact hcall .anyFromColor rfl
  | string => exact hcall .anyFromString rfl

theorem toColor_comes (hbool : ty ≠ .bool) (hm : s.memory.Sound) (hsafe : s.memory.Safe v.pointer) :
    Yields (toColor (.reg ty r) loc) n s held (Comes (s.castOf (s.elementOf v) .color)) := by
  cases hv with
  | integer | float => exact .unary _ r (Comes.written (by rw [hr]; rfl))
  | bool => exact absurd rfl hbool
  | color => exact .pure (Or.inr hr)
  | string p =>
    have hbox : Yields (toAny (.reg .string r) loc) n s held _ := toAny_comes (.string p) hr hm hsafe
    refine .bind (hbox.imp fun d _ s' held' _ _ h => .call _ [d] ?_)
    rcases h with habort | ⟨hheld, hsame⟩
    · exact Or.inl habort
    · refine Comes.written ?_
      rw [← hsame, ← hheld]
      rfl

end Direct

theorem castToValue_any (htarget : target ∈ [.integer, .float, .bool, .color]) :
    Yields (castToValue (.reg .any r) target loc) n s held fun o _ s' held' =>
      s' = s ∧ o.reading s held' = some (s.castOf (s.boxed (held r).pointer) target) := by
  simp only [List.mem_cons, List.not_mem_nil, or_false] at htarget
  rcases htarget with rfl | rfl | rfl | rfl
  · exact .bind (.call .integerFromAny [r] (.pure ⟨rfl, by rw [Operand.reading, Function.update_self]; rfl⟩))
  · exact .bind (.call .floatFromAny [r] (.pure ⟨rfl, by rw [Operand.reading, Function.update_self]; rfl⟩))
  · exact .bind (.call .boolFromAny [r] (.pure ⟨rfl, by rw [Operand.reading, Function.update_self]; rfl⟩))
  · exact .bind (.call .colorFromAny [r] (.pure ⟨rfl, by rw [Operand.reading, Function.update_self]; rfl⟩))

/-- A value in a box is cast as the value is, where the cast is accepted at all. A truth value becomes another
color, and a string is true in a box as soon as it has a byte. -/
theorem boxing_keeps_casts {v : Value} {ty target : ValueType} {loc : Location} {s : Session} {held : Reg → Value}
    {n r : Reg} {env : LowerEnv} {l l' : LowerState} {o : Operand} (hv : v.Plain ty) (hr : held r = v)
    (htarget : target ∈ [.integer, .float, .bool, .color])
    (haccepted : castToValue (.reg ty r) target loc env l = .ok o l') (hcolor : ¬ (ty = .bool ∧ target = .color))
    (hletters : ty = .string → target = .bool → Text.length (s.bytes v.pointer) = 0 → s.bytes v.pointer = [])
    (hm : s.memory.Sound) (hsafe : s.memory.Safe v.pointer) :
    Means (castToValue (.reg ty r) target loc) n s held (s.castOf (s.elementOf v) target) ∧
      Means (do castToValue (.reg .any (← toAny (.reg ty r) loc)) target loc) n s held
        (s.castOf (s.elementOf v) target) := by
  constructor
  · simp only [List.mem_cons, List.not_mem_nil, or_false] at htarget
    rcases htarget with rfl | rfl | rfl | rfl
    · exact means_reg (reading_castOf s _ _) (toInteger_comes hv hr)
    · exact means_reg (reading_castOf s _ _) (toFloat_comes hv hr)
    · refine means_reg (reading_castOf s _ _) (toBool_comes hv hr ?_ fun hty => hletters hty rfl)
      rintro rfl
      cases haccepted
    · exact means_reg (reading_castOf s _ _) (toColor_comes hv hr (fun hty => hcolor ⟨hty, rfl⟩) hm hsafe)
  · refine .bind ((toAny_comes hv hr hm hsafe).imp fun d n' s' held' _ _ h => ?_)
    refine (castToValue_any htarget).imp fun o' _ t last _ _ hres => ?_
    obtain ⟨rfl, hread⟩ := hres
    rcases h with habort | ⟨hbox, hsame⟩
    · exact Or.inl habort
    · rw [hbox, hsame] at hread
      exact Or.inr hread

def greenMemory : Memory :=
  ((Memory.new 1000 10000).grant 16 (.string (Text.ofString "#00ff00"))).2

def greenHeld : Reg → Value := fun _ => .string (.chunk 0)

theorem boxing_keeps_casts_green : greenMemory.Sound ∧ greenMemory.Safe (.chunk 0) ∧
      Means (castToValue (.reg .string 0) .color ⟨0, []⟩) 1 { memory := greenMemory } greenHeld (.color 0x00ff00ff) ∧
      Means (do castToValue (.reg .any (← toAny (.reg .string 0) ⟨0, []⟩)) .color ⟨0, []⟩) 1 { memory := greenMemory }
        greenHeld (.color 0x00ff00ff) := by
  have hm : greenMemory.Sound := (Memory.Sound.new 1000 10000).grant (fun q hq => by cases hq) nofun
  have hsafe : greenMemory.Safe (.chunk 0) := Or.inr (Or.inr (.root (.temp (by simp [greenMemory, Memory.grant, Roots.addTemp, Memory.new, Heap.new]))))
  have hgreen : ({ memory := greenMemory } : Session).castOf (.string (.chunk 0)) .color = .color 0x00ff00ff := by
    decide +kernel
  have hheld : greenHeld 0 = .string (.chunk 0) := rfl
  have haccepted : castToValue (.reg .string 0) .color ⟨0, []⟩ ⟨.main, [], [], false⟩ {} = .ok _ _ := rfl
  have hcasts := boxing_keeps_casts (n := 1) (s := { memory := greenMemory }) (.string (.chunk 0)) hheld (by decide)
    haccepted (by decide) (fun _ h => by cases h) hm hsafe
  simp only [Session.elementOf, hgreen] at hcasts
  exact ⟨hm, hsafe, hcasts⟩

end Lower

namespace Program

/-- A program that prints what a block makes of a value, and of the same value passed through a defined block. -/
def relaying (cast : String) (b : Block) : Program where
  chains :=
    [⟨[.mk "on_start" [], .mk "print" [.block (.mk cast [.block b])],
       .mk "print" [.block (.mk cast [.block (.mk "f" [.block b])])]]⟩,
     ⟨[.definition "f", .mk "return" [.block (.mk "x" [])]]⟩]
  blockdefs := [⟨"f", [.parameter "x"]⟩]

/-- A truth value is white or black as it is and the color of one or zero from a box; a lone continuation byte is
false as it is and true from a box. -/
theorem relaying_changes_casts :
    ((relaying "convert_color" (.mk "convert_bool" [.text "x"])).compile.result.toOption.bind
      (·.run { memory := .new 100 10000 } 100)).map (·.terminal.sink.written.toList) =
        some (Text.ofString "#ffffffff#00000001") ∧
    ((relaying "convert_bool" (.mk "input" [])).compile.result.toOption.bind
      (·.run { memory := .new 100 10000, input := [0x80, 0x0a, 0x80] } 100)).map (·.terminal.sink.written.toList) =
        some (Text.ofString "falsetrue") := by
  decide +kernel

end Program

end Blockwork
