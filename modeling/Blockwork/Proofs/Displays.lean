import Blockwork.Entry.Run
import Blockwork.Proofs.Parsing.Integers

/-! # The cursor on a display
A display that replays what a session has written has its cursor where the session says. -/

namespace Blockwork

/-- Where a display is: in a text, behind an escape byte, or in a sequence, with the number at hand and the ones before
it, the last of them first. -/
inductive Reading
  | text
  | escape
  | sequence (number : Nat) (earlier : List Nat)

structure Display where
  column : Nat := 0
  row : Nat := 0
  reading : Reading := .text

namespace Display

/-- One byte, if it goes on from what was read. A sequence that moves the cursor gives its row and column, counted from
one, or nothing. -/
def feed (d : Display) (b : UInt8) : Option Display :=
  match d.reading with
  | .text =>
    if b = 0x1B then some { d with reading := .escape }
    else if b = 0x0A then some { d with column := 0, row := d.row + 1 }
    else if Text.startsLetter b then some { d with column := d.column + 1 }
    else some d
  | .escape => if b = 0x5B then some { d with reading := .sequence 0 [] } else none
  | .sequence n ns =>
    if Text.isDigit b then some { d with reading := .sequence (10 * n + (b.toNat - 0x30)) ns }
    else if b = 0x3B then some { d with reading := .sequence 0 (n :: ns) }
    else if b = 0x4A ∨ b = 0x6D then some { d with reading := .text }
    else if b = 0x48 then
      match n, ns with
      | 0, [] => some {}
      | column + 1, [row + 1] => some { column, row }
      | _, _ => none
    else none

def replay (d : Display) (b : Bytes) : Option Display := b.foldlM feed d

variable {d d' : Display}

theorem replay_through (h : d.replay a = some d') (b : Bytes) : d.replay (a ++ b) = d'.replay b := by
  rw [replay] at h
  rw [replay, List.foldlM_append, h]
  rfl

theorem replay_digits {ds : Bytes} (h : ∀ b ∈ ds, Text.isDigit b = true) : ∀ n : Nat,
    replay ⟨x, y, .sequence n ns⟩ ds = some ⟨x, y, .sequence (ds.foldl (fun v b => 10 * v + (b.toNat - 0x30)) n) ns⟩ := by
  induction ds with
  | nil => exact fun n => rfl
  | cons b ds ih =>
    obtain ⟨hb, hds⟩ := List.forall_mem_cons.mp h
    intro n
    rw [replay, List.foldlM_cons, feed]
    simp only [hb, if_true]
    exact ih hds _

theorem replay_number (n : Nat) :
    replay ⟨x, y, .sequence 0 ns⟩ (Text.encode (Nat.toDigits 10 n)) = some ⟨x, y, .sequence n ns⟩ := by
  obtain ⟨hrun, hvalue⟩ := Text.isRun_toDigits n
  rw [Text.decimal, Text.positional_eq_foldl, List.foldl_map] at hvalue
  rw [replay_digits hrun.all, hvalue]

theorem ofString_toString (n : Nat) : Text.ofString (toString n) = Text.encode (Nat.toDigits 10 n) :=
  congrArg Text.encode Nat.toList_repr

theorem replay_color {selector : String} (hs : selector = "38" ∨ selector = "48") (color : Int64) :
    replay ⟨x, y, .text⟩ (Escape.colorText selector color) = some ⟨x, y, .text⟩ := by
  have hlead : ∃ ns, replay ⟨x, y, .text⟩ (Text.ofString (Escape.lead ++ selector ++ ";2;")) =
      some ⟨x, y, .sequence 0 ns⟩ := by
    rcases hs with rfl | rfl <;> exact ⟨_, rfl⟩
  obtain ⟨ns, hlead⟩ := hlead
  have hnext : ∀ n ns, replay ⟨x, y, .sequence n ns⟩ (Text.ofString ";") = some ⟨x, y, .sequence 0 (n :: ns)⟩ :=
    fun _ _ => rfl
  simp only [Escape.colorText, Text.ofString_append _ "m", Text.ofString_append _ (toString _),
    Text.ofString_append _ ";", ofString_toString, List.append_assoc]
  rw [replay_through hlead, replay_through (replay_number _), replay_through (hnext _ _),
    replay_through (replay_number _), replay_through (hnext _ _), replay_through (replay_number _)]
  rfl

theorem replay_moveTo (hx : x + 1 < 2 ^ 63) (hy : y + 1 < 2 ^ 63) :
    replay ⟨a, b, .text⟩ (Escape.moveTo ⟨.ofNat x, .ofNat y⟩) = some ⟨x, y, .text⟩ := by
  have hnext : ∀ n : Nat, n + 1 < 2 ^ 63 → (Int64.ofNat n + 1).toInt = (n + 1 : Nat) := fun n hn => by
    rw [← Int64.toInt_ofNat_of_lt hn, Int64.ofNat_add]
    rfl
  have hlead : replay ⟨a, b, .text⟩ (Text.ofString Escape.lead) = some ⟨a, b, .sequence 0 []⟩ := rfl
  have hsep : replay ⟨a, b, .sequence (y + 1) []⟩ (Text.ofString ";") = some ⟨a, b, .sequence 0 [y + 1]⟩ := rfl
  have htext : ∀ n : Nat, Text.ofString (toString ((n : Nat) : Int)) = Text.encode (Nat.toDigits 10 n) := ofString_toString
  simp only [Escape.moveTo, hnext _ hx, hnext _ hy, Text.ofString_append _ "H", Text.ofString_append _ (toString _),
    Text.ofString_append _ ";", htext, List.append_assoc]
  rw [replay_through hlead, replay_through (replay_number _), replay_through hsep, replay_through (replay_number _)]
  rfl

theorem replay_text {b : Bytes} (hb : 0x1B ∉ b) (x y : Nat) : ∃ x' y', replay ⟨x, y, .text⟩ b = some ⟨x', y', .text⟩ ∧
    Cursor.passAll ⟨.ofNat x, .ofNat y⟩ b = ⟨.ofNat x', .ofNat y'⟩ := by
  induction b generalizing x y with
  | nil => exact ⟨x, y, rfl, rfl⟩
  | cons c b ih =>
    have hc : c ≠ 0x1B := fun h => hb (h ▸ List.mem_cons_self)
    have hone : ∀ n : Nat, Int64.ofNat n + 1 = Int64.ofNat (n + 1) := fun n => (Int64.ofNat_add n 1).symm
    have hb := ih fun h => hb (List.mem_cons_of_mem c h)
    simp only [replay, List.foldlM_cons, feed, if_neg hc, Cursor.passAll, List.foldl_cons, Cursor.pass, hone]
    split
    · exact hb 0 (y + 1)
    · split
      · exact hb (x + 1) y
      · exact hb x y

end Display

/-! ### Sessions -/

/-- What was written leads a display to a place in a text, and nothing keeps the sink from taking more. -/
structure Sink.Shows (k : Sink) (x y : Nat) : Prop where
  accepts : k.failAfter = none
  replays : Display.replay {} k.written.toList = some ⟨x, y, .text⟩

theorem Sink.Shows.take {k : Sink} (h : k.Shows x y) (hb : Display.replay ⟨x, y, .text⟩ b = some ⟨x', y', .text⟩) :
    (k.take b).Shows x' y' := by
  refine ⟨h.accepts, ?_⟩
  show Display.replay {} (k.written ++ b.toArray).toList = _
  rw [Array.toList_append, Display.replay_through h.replays, hb]

namespace Session

open Display

variable {s t : Session}

/-- The tracked cursor is at the place that a display shows. -/
def Tracks (s : Session) (x y : Nat) : Prop :=
  s.terminal.sink.Shows x y ∧ s.terminal.cursor = ⟨.ofNat x, .ofNat y⟩

theorem control_terminal (h : s.terminal.sink.failAfter = none) (b : Bytes) :
    (s.control b).terminal = { s.terminal with sink := s.terminal.sink.take b } := by
  have haccepts : s.terminal.sink.accepts = true := by rw [Sink.accepts, h]
  simp [control, send, haccepts]

theorem print_terminal (h : s.terminal.sink.failAfter = none) (hb : b ≠ []) : (s.print b).2.terminal =
    { s.terminal with sink := s.terminal.sink.take b, cursor := s.terminal.cursor.passAll b } := by
  have haccepts : s.terminal.sink.accepts = true := by rw [Sink.accepts, h]
  simp [print, send, haccepts, hb]

theorem shows_control (h : s.terminal.sink.Shows x y) (hb : replay ⟨x, y, .text⟩ b = some ⟨x', y', .text⟩) :
    (s.control b).terminal.sink.Shows x' y' := by
  rw [control_terminal h.accepts]
  exact h.take hb

theorem Tracks.muted (h : s.Tracks x y) (hb : replay ⟨x, y, .text⟩ b = some ⟨x, y, .text⟩) :
    (s.control b).Tracks x y := by
  refine ⟨shows_control h.1 hb, ?_⟩
  rw [control_terminal h.1.accepts]
  exact h.2

theorem Tracks.print (h : s.Tracks x y) (hb : 0x1B ∉ b) : ∃ x' y', (s.print b).2.Tracks x' y' := by
  by_cases hne : b = []
  · subst hne
    exact ⟨x, y, h⟩
  · obtain ⟨x', y', hreplay, hpass⟩ := replay_text hb x y
    refine ⟨x', y', ?_⟩
    rw [Tracks, print_terminal h.1.accepts hne, h.2]
    exact ⟨h.1.take hreplay, hpass⟩

theorem Tracks.clear (h : s.Tracks x y) : s.clearScreen.Tracks 0 0 := by
  have hclear : ∀ {x y}, replay ⟨x, y, .text⟩ Escape.clear = some {} := rfl
  have hback : ∀ {s : Session} {x y} color, s.terminal.sink.Shows x y →
      (s.control (Escape.background color)).terminal.sink.Shows x y := fun color h =>
    shows_control h (replay_color (.inr rfl) color)
  unfold clearScreen
  split
  · exact ⟨shows_control h.1 hclear, rfl⟩
  next color _ =>
    have hcleared := shows_control (hback color h.1) hclear
    dsimp only
    split
    next own _ => exact ⟨hback own hcleared, rfl⟩
    · exact ⟨shows_control hcleared (b := Escape.defaultBackground) rfl, rfl⟩

theorem clamped {v : Int64} (hv : v ≠ Int64.maxValue) :
    ∃ n : Nat, (if v.toInt < 0 then 0 else v) = .ofNat n ∧ n + 1 < 2 ^ 63 := by
  split
  · exact ⟨0, rfl, by decide⟩
  next hnonneg =>
    have hlt := v.toInt_lt
    have hne : v.toInt ≠ 2 ^ 63 - 1 := fun h => hv (Int64.toInt_inj.mp h)
    refine ⟨v.toInt.toNat, ?_, by omega⟩
    rw [← Int64.ofInt_eq_ofNat, Int.toNat_of_nonneg (Int.not_lt.mp hnonneg), Int64.ofInt_toInt]

theorem Tracks.move {u v : Int64} (h : s.Tracks x y) (hu : u ≠ Int64.maxValue) (hv : v ≠ Int64.maxValue) :
    ∃ x' y', (s.moveCursor u v).Tracks x' y' := by
  obtain ⟨x', hx, hxs⟩ := clamped hu
  obtain ⟨y', hy, hys⟩ := clamped hv
  refine ⟨x', y', ?_⟩
  rw [moveCursor, hx, hy]
  exact ⟨shows_control h.1 (replay_moveTo hxs hys), rfl⟩

theorem print_append (h : s.terminal.sink.failAfter = none) (a b : Bytes) :
    ((s.print a).2.print b).2.terminal.cursor = (s.print (a ++ b)).2.terminal.cursor := by
  by_cases ha : a = []
  · subst ha
    rfl
  · have hprint := print_terminal h ha
    by_cases hb : b = []
    · rw [hb, List.append_nil]
      rfl
    · rw [print_terminal (s := (s.print a).2) (by rw [hprint]; exact h) hb, hprint,
        print_terminal h (List.append_ne_nil_of_left_ne_nil ha b)]
      exact List.foldl_append.symm

end Session

/-- What a call prints, if it prints. -/
def Entry.text? (e : Entry) (args : List Value) (s : Session) : Option Bytes :=
  let arg := argument args 0
  match e with
  | .printLiteral => some arg.toText
  | .printString => some (s.bytes arg.pointer)
  | .printInteger => some (Text.formatInt arg.toInteger)
  | .printFloat => some (Text.formatFloat arg.toFloat)
  | .printBool => some (Text.formatBool arg.toBool)
  | .printColor => some (Text.formatColor arg.toInteger)
  | .printList => some (Text.formatList (s.listLength arg.pointer))
  | .printAny => some (s.textOf (s.boxed arg.pointer))
  | _ => none

namespace Session

/-- One call that draws: a text without escape bytes, colors, a clear screen, or a cursor that is not moved to the very
last column or row. -/
inductive Draws : Session → Session → Prop
  | text {e : Entry} {s : Session} : e.text? args s = some b → 0x1B ∉ b → Draws s (e.run args s).2
  | styled : e ∈ [Entry.termSetFgColor, .termSetBgColor, .termResetColor, .termSetClearColor, .termClear] →
      Draws s (e.run args s).2
  | moved : (argument args 0).toInteger ≠ Int64.maxValue → (argument args 1).toInteger ≠ Int64.maxValue →
      Draws s (Entry.termSetCursor.run args s).2

theorem Draws.tracks (h : Draws s t) (hs : s.Tracks x y) : ∃ x' y', t.Tracks x' y' := by
  cases h with
  | @text args b e _ htext hb =>
    have hrun : (e.run args s).2 = (s.print b).2 := by
      cases e <;> cases htext <;> rfl
    rw [hrun]
    exact hs.print hb
  | moved hx hy => exact hs.move hx hy
  | styled he =>
    simp only [List.mem_cons, List.not_mem_nil, or_false] at he
    rcases he with rfl | rfl | rfl | rfl | rfl
    · exact ⟨x, y, hs.muted (Display.replay_color (.inl rfl) _)⟩
    · exact ⟨x, y, hs.muted (Display.replay_color (.inr rfl) _)⟩
    · exact ⟨x, y, hs.muted (b := Escape.reset) rfl⟩
    · exact ⟨x, y, hs⟩
    · exact ⟨0, 0, hs.clear⟩

end Session

end Blockwork
