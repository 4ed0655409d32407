import Blockwork.Proofs.Boxing
import Blockwork.Proofs.Letters
import Blockwork.Proofs.Moves

/-! # Texts of the program and strings
A text of the program is converted, measured and tested while compiling, a string while the program runs. -/

namespace Blockwork

open Session Value Text

/-! ### What operands stand for -/

/-- An operand stands for a well-formed text, as a text of the program or as a string that roots keep, for an integer,
or for nothing. -/
inductive Operand.Stands (n : Reg) (s : Session) (held : Reg → Value) : Operand → Value → Prop where
  | literal (t : String) : Stands n s held (.literal t) (.text (ofString t))
  | string {r : Reg} {p : Pointer} {t : String} (hr : r < n) (hp : held r = .string p)
      (hheld : s.memory.Held s.memory.roots p) (hbytes : s.bytes p = ofString t) (hlen : t.length < 2 ^ 64) :
      Stands n s held (.reg .string r) (.text (ofString t))
  | integer {r : Reg} {k : Int64} (hr : r < n) (hk : held r = .integer k) : Stands n s held (.reg .integer r) (.integer k)
  | nothing : Stands n s held .nothing .zero

namespace Value

def readInteger : Value → Int64
  | text b => leadingInt b
  | v => v.toInteger

def readFloat : Value → Float
  | text b => leadingFloat b
  | integer k => Binary64.ofInt k
  | _ => Float.ofBits 0

def readBool : Value → Bool
  | text b => !b.isEmpty
  | v => v.toInteger != 0

def readColor : Value → Int64
  | text b => (parseColor (lossy b)).getD 0
  | v => v.toInteger

def readText : Value → Bytes
  | text b => b
  | integer k => formatInt k
  | _ => ofString "nothing"

end Value

/-- What a block makes of what its operands stand for. -/
def Operation.fold (op : Operation) (xs : List Value) : Value :=
  let x (i : Nat) : Value := xs.getD i .zero
  match op with
  | .toInteger => .integer (x 0).readInteger
  | .toFloat => .float (x 0).readFloat
  | .toBool => .bool (x 0).readBool
  | .toColor => .color (x 0).readColor
  | .toString => .text (x 0).readText
  | .length => .integer (Text.length (x 0).readText)
  | .ord => .integer (Text.ord (x 0).readText)
  | .letterIn => .text (letterAt (x 1).readText (x 0).readInteger)
  | .substring => .text (Text.substring (x 2).readText (x 0).readInteger (x 1).readInteger)
  | .join => .text ((x 0).readText ++ (x 1).readText)
  | .not => .bool (!(x 0).readBool)
  | .and => .bool ((x 0).readBool && (x 1).readBool)
  | .or => .bool ((x 0).readBool || (x 1).readBool)
  | _ => .zero

def Operation.folding : List Operation :=
  [.toInteger, .toFloat, .toBool, .toColor, .toString, .length, .ord, .letterIn, .substring, .join, .not, .and, .or]

/-! ### Strings that are kept -/

namespace Session

variable {s s' : Session}

structure Keeps (s s' : Session) : Prop where
  sound : s'.memory.Sound
  held : ∀ p, s.memory.Held s.memory.roots p → s'.memory.Held s'.memory.roots p
  bytes : ∀ p, s.memory.Held s.memory.roots p → s'.bytes p = s.bytes p
  abort : s.abort.isSome = true → s'.abort.isSome = true

theorem Keeps.refl (hm : s.memory.Sound) : Keeps s s := ⟨hm, fun _ hp => hp, fun _ _ => rfl, id⟩

theorem isSome_abort (h : s.Recalls s') (hs : s.abort.isSome = true) : s'.abort.isSome = true := by
  obtain ⟨e, he⟩ := Option.isSome_iff_exists.mp hs
  rw [h.abort e he]
  rfl

theorem keeps_allocString (hm : s.memory.Sound) (h : s.allocString b = (q, s')) :
    Keeps s s' ∧ (s'.abort.isSome = true ∨ s'.memory.Held s'.memory.roots q ∧ s'.bytes q = b) := by
  have h : s.allocOr (stringSize b.length) (.string b) .emptyString = (q, s') := h
  obtain ⟨hafter, hkept, hnew⟩ := allocOr_keeps hm (fun p hp => by cases hp) (fun l hl => by cases hl) h
  refine ⟨⟨hafter.sound, fun p hp => ?_, fun p hp => bytes_congr (hkept p (hp.safe (.refl _))), isSome_abort ?_⟩, ?_⟩
  · exact (hp.kept (hafter.kept (.refl _))).mono hafter.sub
  · have hfollows := s.follows_allocOr (stringSize b.length) (.string b) .emptyString
    rw [h] at hfollows
    exact hfollows.recalls
  · refine hnew.imp_right fun hq => ⟨.temp hq.1, ?_⟩
    unfold bytes Heap.bytes
    rw [hq.2]

end Session

namespace Lower

variable {s s' : Session} {held held' : Reg → Value} {n n' : Reg} {a a' : Operand} {x x' : Value} {b : Bytes}
  {loc : Location}

theorem stands_later (h : a.Stands n s held x) (hn : n ≤ n') (hheld : ∀ r < n, held' r = held r) (hk : s.Keeps s') :
    a.Stands n' s' held' x := by
  cases h with
  | literal t => exact .literal t
  | string hr hp hroot hbytes hlen =>
    exact .string (Nat.lt_of_lt_of_le hr hn) ((hheld _ hr).trans hp) (hk.held _ hroot)
      ((hk.bytes _ hroot).trans hbytes) hlen
  | integer hr hv => exact .integer (Nat.lt_of_lt_of_le hr hn) ((hheld _ hr).trans hv)
  | nothing => exact .nothing

def Holds (s : Session) (v : Value) (d n : Reg) (s' : Session) (held : Reg → Value) : Prop :=
  s' = s ∧ d < n ∧ held d = v

theorem Holds.written (h : v = w) : Holds s w n (n + 1) s (Function.update held n v) :=
  ⟨rfl, Nat.lt_succ_self n, by rw [Function.update_self, h]⟩

theorem toInteger_holds (h : a.Stands n s held x) :
    Yields (toInteger a loc) n s held (Holds s (.integer x.readInteger)) := by
  cases h with
  | literal => exact .constant _ (Holds.written rfl)
  | string hr hp hroot hbytes =>
    refine .call .stringToInteger [_] (Holds.written ?_)
    rw [List.map_singleton, hp, readInteger, ← hbytes]
    rfl
  | integer hr hv => exact .pure ⟨rfl, hr, hv⟩
  | nothing => exact .constant _ (Holds.written rfl)

theorem toFloat_holds (h : a.Stands n s held x) : Yields (toFloat a loc) n s held (Holds s (.float x.readFloat)) := by
  cases h with
  | literal => exact .constant _ (Holds.written rfl)
  | string hr hp hroot hbytes =>
    refine .call .stringToFloat [_] (Holds.written ?_)
    rw [List.map_singleton, hp, readFloat, ← hbytes]
    rfl
  | integer hr hv => exact .unary _ _ (Holds.written (by rw [hv]; rfl))
  | nothing => exact .constant _ (Holds.written rfl)

theorem toBool_holds (h : a.Stands n s held x) : Yields (toBool a loc) n s held (Holds s (.bool x.readBool)) := by
  cases h with
  | literal =>
    refine .constant _ (Holds.written ?_)
    rw [readBool, isEmpty_ofString]
    rfl
  | string hr hp hroot hbytes hlen =>
    refine .bind (.call .stringLength [_] (.unary _ n ⟨rfl, Nat.lt_succ_self _, ?_⟩))
    rw [Function.update_self, Function.update_self, List.map_singleton, hp]
    rw [readBool, ← isNonzero_length hlen, ← hbytes]
    rfl
  | integer hr hv => exact .unary _ _ (Holds.written (by rw [hv]; rfl))
  | nothing => exact .constant _ (Holds.written rfl)

theorem toColor_comes_of_stands (h : a.Stands n s held x) (hm : s.memory.Sound)
    (hcolor : ∀ b, x = .text b → (parseColor (lossy b)).isSome = true ∨ leadingInt b = 0) :
    Yields (toColor a loc) n s held (Comes (.color x.readColor)) := by
  cases h with
  | literal t =>
    refine .constant _ (Comes.written (congrArg color ?_))
    have hlossy : lossy (ofString t) = t.toList := lossy_encode _
    rcases hcolor _ rfl with hsome | hzero
    · obtain ⟨k, hk⟩ := Option.isSome_iff_exists.mp hsome
      rw [literalColor, readColor, hk, ← hlossy, hk]
      rfl
    · rw [literalColor, readColor, hlossy, hzero]
  | @string r p t hr hp hroot hbytes hlen =>
    rw [readColor, ← hbytes]
    exact toColor_comes (.string p) hp (fun he => by cases he) hm (hroot.safe (.refl _))
  | integer hr hv => exact .unary _ _ (Comes.written (by rw [hv]; rfl))
  | nothing => exact .constant _ (Comes.written rfl)

def Makes (s : Session) (b : Bytes) (d n : Reg) (s' : Session) (held : Reg → Value) : Prop :=
  s.Keeps s' ∧ d < n ∧
    (s'.abort.isSome = true ∨ ∃ p, held d = .string p ∧ s'.memory.Held s'.memory.roots p ∧ s'.bytes p = b)

theorem call_makes (e : Entry) (args : List Reg) (hm : s.memory.Sound)
    (he : e.run (args.map held) s = stringResult (s.allocString b)) : Yields (call e args) n s held (Makes s b) := by
  refine .call e args ?_
  rw [he]
  obtain ⟨hkeeps, hnew⟩ := keeps_allocString hm (b := b) rfl
  exact ⟨hkeeps, Nat.lt_succ_self n, hnew.imp_right fun hp => ⟨_, Function.update_self .., hp⟩⟩

theorem stringLiteral_makes (hm : s.memory.Sound) (t : String) :
    Yields (stringLiteral t) n s held (Makes s (ofString t)) := by
  refine .bind (.constant _ (call_makes .stringFromLiteral [n] hm ?_))
  rw [List.map_singleton, Function.update_self]
  rfl

theorem toString_makes (h : a.Stands n s held x) (hm : s.memory.Sound) :
    Yields (toString a loc) n s held (Makes s x.readText) := by
  cases h with
  | literal t => exact stringLiteral_makes hm t
  | string hr hp hroot hbytes => exact .pure ⟨.refl hm, hr, Or.inr ⟨_, hp, hroot, hbytes⟩⟩
  | integer hr hv =>
    refine call_makes .stringFromInteger [_] hm ?_
    rw [List.map_singleton, hv]
    rfl
  | nothing => exact stringLiteral_makes hm _

theorem call_comes (he : s.abort.isSome = true ∨ e.run (args.map held) s = (v, s)) :
    Yields (call e args) n s held (Comes v) := by
  refine .call e args ?_
  rcases he with habort | he
  · exact Or.inl (isSome_abort (e.recalls _ s) habort)
  · rw [he]
    exact Comes.written rfl

theorem means_string {x : Lower Reg} (hx : Yields x n s held (Makes s b)) :
    Means (do return .reg .string (← x)) n s held (.text b) := by
  refine .bind (hx.imp fun d _ s' held' _ _ hd => .pure (hd.2.2.imp_right ?_))
  rintro ⟨p, hp, -, hbytes⟩
  rw [Operand.reading, hp, Session.reading, hbytes]

theorem call_means_text (hm : s.memory.Sound)
    (he : s.abort.isSome = true ∨ e.run (args.map held) s = stringResult (s.allocString b)) :
    Means (do return .reg .string (← call e args)) n s held (.text b) := by
  rcases he with habort | he
  · exact .bind (.call e args (.pure (Or.inl (isSome_abort (e.recalls _ s) habort))))
  · exact means_string (call_makes e args hm he)

/-! ### Blocks -/

theorem measure_means {f : Bytes → Int64} (loc : Location) (he : ∀ v s, e.run [v] s = (.integer (f (s.bytes v.pointer)), s))
    (h : a.Stands n s held x) (hm : s.memory.Sound) :
    Means (do return .reg .integer (← call e [← toString a loc])) n s held (.integer (f x.readText)) := by
  refine .bind ((toString_makes h hm).imp fun d _ s' held' _ _ hd => means_reg (fun _ => rfl) (call_comes (hd.2.2.imp_right ?_)))
  rintro ⟨p, hp, -, hbytes⟩
  rw [List.map_singleton, hp, he, ← hbytes]
  rfl

theorem length_means (h : a.Stands n s held x) (hm : s.memory.Sound) :
    Means (length a loc) n s held (.integer (Text.length x.readText)) := by
  have hcall := measure_means (e := .stringLength) (f := Text.length) loc (fun _ _ => rfl) h hm
  cases h with
  | literal =>
    refine means_reg (fun _ => rfl) (.constant _ (Comes.written (congrArg integer ?_)))
    rw [readText, ofString, length_encode]
  | _ => exact hcall

theorem ord_means (h : a.Stands n s held x) (hm : s.memory.Sound) :
    Means (ord a loc) n s held (.integer (Text.ord x.readText)) := by
  have hcall := measure_means (e := .stringOrd) (f := Text.ord) loc (fun _ _ => rfl) h hm
  cases h with
  | literal t => exact means_reg (fun _ => rfl) (.constant _ (Comes.written (congrArg integer (ord_ofString t).symm)))
  | _ => exact hcall

theorem join_means (h : a.Stands n s held x) (h' : a'.Stands n s held x') (hm : s.memory.Sound) :
    Means (join a a' loc) n s held (.text (x.readText ++ x'.readText)) := by
  have hcall : Means (do
      let l ← toString a loc
      let r ← toString a' loc
      return .reg .string (← call .stringJoin [l, r])) n s held (.text (x.readText ++ x'.readText)) := by
    refine .bind ((toString_makes h hm).imp fun d n₁ s₁ held₁ hn₁ hkept₁ hd => ?_)
    have hlater := stands_later h' hn₁ hkept₁ hd.1
    refine .bind ((toString_makes hlater hd.1.sound).imp fun d' n₂ s₂ held₂ hn₂ hkept₂ hd' => ?_)
    refine call_means_text hd'.1.sound ?_
    rcases hd.2.2 with habort | ⟨p, hp, hroot, hbytes⟩
    · exact Or.inl (hd'.1.abort habort)
    · refine hd'.2.2.imp_right ?_
      rintro ⟨p', hp', -, hbytes'⟩
      have hfirst : held₂ d = .string p := (hkept₂ d hd.2.1).trans hp
      rw [List.map_cons, List.map_singleton, hfirst, hp', ← hbytes, ← hbytes', ← hd'.1.bytes p hroot]
      rfl
  cases h with
  | literal =>
    cases h' with
    | literal =>
      refine .pure (Or.inr ?_)
      rw [Operand.reading, ofString_append]
      rfl
    | _ => exact hcall
  | _ => exact hcall

theorem letterIn_means (h : a.Stands n s held x) (h' : a'.Stands n s held x') (hm : s.memory.Sound) : Means (do
      let index ← toInteger a loc
      let text ← toString a' loc
      return .reg .string (← call .stringLetterIn [index, text])) n s held
        (.text (letterAt x'.readText x.readInteger)) := by
  refine .bind ((toInteger_holds h).imp fun i n₁ s₁ held₁ hn₁ hkept₁ hi => ?_)
  obtain ⟨rfl, hin, hvi⟩ := hi
  refine .bind ((toString_makes (stands_later h' hn₁ hkept₁ (.refl hm)) hm).imp fun d n₂ s₂ held₂ hn₂ hkept₂ hd => ?_)
  refine call_means_text hd.1.sound (hd.2.2.imp_right ?_)
  rintro ⟨p, hp, -, hbytes⟩
  rw [List.map_cons, List.map_singleton, hkept₂ i hin, hvi, hp, ← hbytes]
  rfl

theorem substring_means (h : a.Stands n s held x) (h' : a'.Stands n s held x') (h'' : a''.Stands n s held x'')
    (hm : s.memory.Sound) : Means (do
      let first ← toInteger a loc
      let last ← toInteger a' loc
      let text ← toString a'' loc
      return .reg .string (← call .stringSubstring [first, last, text])) n s held
        (.text (Text.substring x''.readText x.readInteger x'.readInteger)) := by
  refine .bind ((toInteger_holds h).imp fun i n₁ s₁ held₁ hn₁ hkept₁ hi => ?_)
  obtain ⟨rfl, hin, hvi⟩ := hi
  refine .bind ((toInteger_holds (stands_later h' hn₁ hkept₁ (.refl hm))).imp fun j n₂ s₂ held₂ hn₂ hkept₂ hj => ?_)
  obtain ⟨rfl, hjn, hvj⟩ := hj
  have hlater := stands_later (stands_later h'' hn₁ hkept₁ (.refl hm)) hn₂ hkept₂ (.refl hm)
  refine .bind ((toString_makes hlater hm).imp fun d n₃ s₃ held₃ hn₃ hkept₃ hd => ?_)
  refine call_means_text hd.1.sound (hd.2.2.imp_right ?_)
  rintro ⟨p, hp, -, hbytes⟩
  rw [List.map_cons, List.map_cons, List.map_singleton, hkept₃ i (Nat.lt_of_lt_of_le hin hn₂), hkept₂ i hin, hvi, hkept₃ j hjn, hvj, hp,
    ← hbytes]
  rfl

theorem logical_means {f : Bool → Bool → Bool} (op : BinaryOp) (h : a.Stands n s held x) (h' : a'.Stands n s held x') (hm : s.memory.Sound)
    (hop : ∀ v w, op.run (.bool v) (.bool w) = .bool (f v w)) :
    Means (logical op a a' loc) n s held (.bool (f x.readBool x'.readBool)) := by
  refine .bind ((toBool_holds h).imp fun i n₁ s₁ held₁ hn₁ hkept₁ hi => ?_)
  obtain ⟨rfl, hin, hvi⟩ := hi
  refine .bind ((toBool_holds (stands_later h' hn₁ hkept₁ (.refl hm))).imp fun j n₂ s₂ held₂ hn₂ hkept₂ hj => ?_)
  obtain ⟨rfl, hjn, hvj⟩ := hj
  refine means_reg (fun _ => rfl) (.binary op i j (Comes.written ?_))
  rw [hkept₂ i hin, hvi, hvj, hop]

theorem getD_stands (h : List.Forall₂ (Operand.Stands n s held) argv xs) (i : Nat) :
    (argv.getD i .nothing).Stands n s held (xs.getD i .zero) := by
  induction h generalizing i with
  | nil => exact .nothing
  | cons hhead _ ih =>
    cases i with
    | zero => exact hhead
    | succ i => exact ih i

theorem Holds.comes (h : Holds s w d top s' held') : Comes w d top s' held' := Or.inr h.2.2

theorem operation_means (hop : op ∈ Operation.folding) (hargv : List.Forall₂ (Operand.Stands n s held) argv xs)
    (hm : s.memory.Sound) (hcolor : op = .toColor → ∀ b, xs.getD 0 .zero = .text b →
      (parseColor (lossy b)).isSome = true ∨ leadingInt b = 0) (loc : Location) :
    Means (operation op argv loc) n s held (op.fold xs) := by
  have harg := getD_stands hargv
  simp only [Operation.folding, List.mem_cons, List.not_mem_nil, or_false] at hop
  rcases hop with rfl | rfl | rfl | rfl | rfl | rfl | rfl | rfl | rfl | rfl | rfl | rfl | rfl
  · exact means_reg (fun _ => rfl) ((toInteger_holds (harg 0)).imp fun _ _ _ _ _ _ h => h.comes)
  · exact means_reg (fun _ => rfl) ((toFloat_holds (harg 0)).imp fun _ _ _ _ _ _ h => h.comes)
  · exact means_reg (fun _ => rfl) ((toBool_holds (harg 0)).imp fun _ _ _ _ _ _ h => h.comes)
  · exact means_reg (fun _ => rfl) (toColor_comes_of_stands (harg 0) hm (hcolor rfl))
  · exact means_string (toString_makes (harg 0) hm)
  · exact length_means (harg 0) hm
  · exact ord_means (harg 0) hm
  · exact letterIn_means (harg 0) (harg 1) hm
  · exact substring_means (harg 0) (harg 1) (harg 2) hm
  · exact join_means (harg 0) (harg 1) hm
  · refine .bind ((toBool_holds (harg 0)).imp fun d _ _ held' _ _ h => means_reg (fun _ => rfl) ?_)
    refine .unary .not d (Comes.written ?_)
    rw [h.2.2]
    rfl
  · exact logical_means .and (harg 0) (harg 1) hm fun _ _ => rfl
  · exact logical_means .or (harg 0) (harg 1) hm fun _ _ => rfl

/-- Operands that stand for the same are alike to a block that converts, measures, cuts or joins texts or tests them,
and to the test of a branch or a loop, whether texts are part of the program or strings. -/
theorem texts_fold_alike {n : Reg} {s : Session} {held : Reg → Value} {op : Operation} {argv argv' : List Operand}
    {xs : List Value} (hargv : List.Forall₂ (Operand.Stands n s held) argv xs)
    (hargv' : List.Forall₂ (Operand.Stands n s held) argv' xs) (hm : s.memory.Sound) (hop : op ∈ Operation.folding)
    (hcolor : op = .toColor → ∀ b, xs.getD 0 .zero = .text b →
      (Text.parseColor (Text.lossy b)).isSome = true ∨ Text.leadingInt b = 0) (loc : Location) :
    (∃ v, Means (operation op argv loc) n s held v ∧ Means (operation op argv' loc) n s held v) ∧
      ∃ test, Yields (toBool (argv.getD 0 .nothing) loc) n s held (Holds s (.bool test)) ∧
        Yields (toBool (argv'.getD 0 .nothing) loc) n s held (Holds s (.bool test)) ∧
        ∀ o ∈ [Opener.whenTrue, .whileTrue], ∀ start, ∃ enter : Reg → Lower Unit,
          openScope o start argv loc = toBool (argv.getD 0 .nothing) loc >>= enter ∧
            openScope o start argv' loc = toBool (argv'.getD 0 .nothing) loc >>= enter := by
  refine ⟨⟨op.fold xs, operation_means hop hargv hm hcolor loc, operation_means hop hargv' hm hcolor loc⟩, ?_⟩
  refine ⟨_, toBool_holds (getD_stands hargv 0), toBool_holds (getD_stands hargv' 0), fun o ho start => ?_⟩
  simp only [List.mem_cons, List.not_mem_nil, or_false] at ho
  rcases ho with rfl | rfl
  · exact ⟨_, rfl, rfl⟩
  · exact ⟨_, rfl, rfl⟩

def accentSession : Session :=
  { memory := ((Memory.new 1000 10000).grant 12 (.string (ofString "né"))).2 }

def accentHeld : Reg → Value := fun _ => .string (.chunk 0)

theorem texts_fold_alike_accent : accentSession.memory.Sound ∧
      List.Forall₂ (Operand.Stands 1 accentSession accentHeld) [.reg .string 0] [.text (Text.ofString "né")] ∧
      ∃ v, Means (operation .length [.literal "né"] ⟨0, []⟩) 1 accentSession accentHeld v ∧
        Means (operation .length [.reg .string 0] ⟨0, []⟩) 1 accentSession accentHeld v := by
  have hm : accentSession.memory.Sound := (Memory.Sound.new 1000 10000).grant (fun q hq => by cases hq) nofun
  have hroot : accentSession.memory.Held accentSession.memory.roots (.chunk 0) :=
    .temp (by simp [accentSession, Memory.grant, Roots.addTemp, Memory.new, Heap.new])
  have hargs : List.Forall₂ (Operand.Stands 1 accentSession accentHeld) [.reg .string 0]
      [.text (Text.ofString "né")] :=
    .cons (.string (by decide) rfl hroot (by decide) (by decide)) .nil
  exact ⟨hm, hargs, (texts_fold_alike (.cons (.literal "né") .nil) hargs hm (by decide) (fun h => by cases h) ⟨0, []⟩).1⟩

end Lower

namespace Program

def paints (t : String) : Program where
  chains :=
    [⟨[.mk "on_start" [], .mk "print" [.block (.mk "convert_color" [.text t])],
       .mk "print" [.block (.mk "convert_color" [.block (.mk "convert_str" [.text t])])]]⟩]
  blockdefs := []

/-- A text that is no color but begins with a number is the color of that number, a string of it is no color. -/
theorem paints_number : ((paints "5").compile.result.toOption.bind (·.run { memory := .new 100 10000 } 100)).map
      (·.terminal.sink.written.toList) = some (Text.ofString "#00000005#00000000") := by
  decide +kernel

end Program

end Blockwork
