import Blockwork.Proofs.Parsing.Integers

/-! # Lines and letters of the input
Lines and letters are taken from one text, in any order. -/

namespace Blockwork

open Text

namespace Input

/-- What a call takes from the front of a text: the characters that it gives, and the rest that it leaves. -/
inductive Takes : Entry → List Char → List Char → List Char → Prop where
  | newline : Takes .termGetChar ('\n' :: rest) [] rest
  | letter : c ≠ '\n' → Takes .termGetChar (c :: rest) [c] rest
  | noLetter : Takes .termGetChar [] [] []
  | line : '\n' ∉ line → line.getLast? ≠ some '\r' → Takes .termInput (line ++ '\n' :: rest) line rest
  | returned : '\n' ∉ line → Takes .termInput (line ++ '\r' :: '\n' :: rest) line rest
  | lastLine : '\n' ∉ line → Takes .termInput line line []

theorem Takes.suffix (h : Takes e cs given rest) : rest <:+ cs := by
  cases h with
  | newline | letter => exact List.suffix_cons _ _
  | noLetter => exact List.suffix_rfl
  | line => exact ⟨given ++ ['\n'], by simp⟩
  | returned => exact ⟨given ++ ['\r', '\n'], by simp⟩
  | lastLine => exact List.nil_suffix

theorem takes_letter (cs : List Char) :
    ∃ given rest, Takes .termGetChar cs given rest ∧ readLetter (encode cs) = (encode given, encode rest) := by
  cases cs with
  | nil => exact ⟨[], [], .noLetter, rfl⟩
  | cons c cs =>
    by_cases hc : c = '\n'
    · subst hc
      exact ⟨[], cs, .newline, rfl⟩
    · obtain ⟨b, tail, hbytes, -, -, hwidth, hself⟩ := utf8EncodeChar_bytes c
      have hb : b ≠ 0x0A := by
        rintro rfl
        exact hc (hself (by decide))
      refine ⟨[c], cs, .letter hc, ?_⟩
      rw [encode_cons, encode_cons, hbytes, List.cons_append, readLetter, if_neg hb, hwidth, Nat.add_sub_cancel]
      simp

theorem newline_not_mem (h : '\n' ∉ line) : ∀ x ∈ encode line, decide (x ≠ 0x0A) = true := by
  refine fun x hx => decide_eq_true ?_
  rintro rfl
  exact h (mem_encode hx (by decide))

theorem readLine_last (h : '\n' ∉ line) : readLine (encode line) = (encode line, []) := by
  have hrun : IsRun (· ≠ 0x0A) (encode line) [] := ⟨newline_not_mem h, nofun⟩
  have htake := hrun.takeWhile
  have hdrop := hrun.dropWhile
  rw [List.append_nil] at htake hdrop
  simp only [readLine, htake, hdrop]

theorem readLine_line (h : '\n' ∉ line) (rest : List Char) :
    readLine (encode (line ++ '\n' :: rest)) = (dropReturn (encode line), encode rest) := by
  have hrun : IsRun (· ≠ 0x0A) (encode line) (encode ('\n' :: rest)) := by
    refine ⟨newline_not_mem h, fun x hx => ?_⟩
    cases hx
    rfl
  rw [encode_append]
  simp only [readLine, hrun.takeWhile, hrun.dropWhile]
  rfl

theorem dropReturn_encode (h : line.getLast? ≠ some '\r') : dropReturn (encode line) = encode line := by
  refine if_neg fun hlast => ?_
  rcases line.eq_nil_or_concat with rfl | ⟨front, c, rfl⟩
  · cases hlast
  · rw [List.concat_eq_append, encode_append, encode_cons, encode_nil, List.append_nil] at hlast
    obtain ⟨b, tail, hbytes, -⟩ := utf8EncodeChar_bytes c
    rw [hbytes, List.getLast?_append_of_ne_nil _ (List.cons_ne_nil _ _), ← hbytes] at hlast
    have hmem : (0x0D : UInt8) ∈ encode [c] := by
      rw [encode_cons, encode_nil, List.append_nil]
      exact List.mem_of_getLast? hlast
    have hc := List.mem_singleton.mp (mem_encode hmem (by decide))
    exact h (by rw [← hc, List.concat_eq_append, List.getLast?_concat]; rfl)

theorem takes_line (cs : List Char) :
    ∃ given rest, Takes .termInput cs given rest ∧ readLine (encode cs) = (encode given, encode rest) := by
  by_cases hcs : '\n' ∈ cs
  · obtain ⟨line, rest, rfl, hline⟩ := List.eq_append_cons_of_mem hcs
    have hread := readLine_line hline rest
    by_cases hlast : line.getLast? = some '\r'
    · obtain ⟨front, rfl⟩ := List.getLast?_eq_some_iff.mp hlast
      have hdrop : dropReturn (encode (front ++ ['\r'])) = encode front := by
        rw [encode_append, show encode ['\r'] = [0x0D] from rfl, dropReturn, if_pos List.getLast?_concat,
          List.dropLast_concat]
      refine ⟨front, rest, ?_, hread.trans (by rw [hdrop])⟩
      rw [List.append_assoc]
      exact .returned fun h => hline (List.mem_append_left _ h)
    · exact ⟨line, rest, .line hline hlast, hread.trans (by rw [dropReturn_encode hlast])⟩
  · exact ⟨cs, [], .lastLine hcs, readLine_last hcs⟩

end Input

open Input

namespace Session

/-- What calls without arguments give one after the other, each with the session that it leaves. -/
def replies : List Entry → Session → List (Value × Session)
  | [], _ => []
  | e :: calls, s => e.run [] s :: replies calls (e.run [] s).2

/-- Replies to calls, the first of them with the characters `cs` left to read. -/
inductive Serves : List Entry → List Char → List (Value × Session) → Prop where
  | nil : Serves [] cs []
  | cons : Takes e cs given rest → s.input = encode rest →
      (s.bytes v.pointer = encode given ∨ v.pointer = .static .emptyString ∧ s.abort.isSome = true) →
      Serves calls rest later → Serves (e :: calls) cs ((v, s) :: later)

theorem Serves.suffix (h : Serves calls cs given) :
    ∀ reply ∈ given, ∃ rest, rest <:+ cs ∧ reply.2.input = encode rest := by
  induction h with
  | nil => exact List.forall_mem_nil _
  | @cons _ cs _ rest _ _ _ _ htakes hinput _ _ ih =>
    refine List.forall_mem_cons.mpr ⟨⟨rest, htakes.suffix, hinput⟩, fun reply hreply => ?_⟩
    obtain ⟨left, hleft, hreads⟩ := ih reply hreply
    exact ⟨left, hleft.trans htakes.suffix, hreads⟩

theorem allocString_gives (s : Session) (b : Bytes) : (s.allocString b).2.input = s.input ∧
    ((s.allocString b).2.bytes (s.allocString b).1 = b ∨
      (s.allocString b).1 = .static .emptyString ∧ (s.allocString b).2.abort.isSome = true) := by
  obtain ⟨m, -, hok | ⟨e, herr⟩⟩ := s.alloc_cases (stringSize b.length) (.string b)
  · simp only [allocString, allocOr, hok]
    have hread : (m.grant (stringSize b.length) (.string b)).2.heap.payload? (.chunk m.heap.next) = some (.string b) :=
      (Heap.payload?_push _ _ _ _).trans (if_pos rfl)
    exact ⟨trivial, .inl (by rw [bytes, Heap.bytes, hread])⟩
  · simp only [allocString, allocOr, herr, fail]
    split
    next hpending => exact ⟨rfl, .inr ⟨trivial, hpending⟩⟩
    next => exact ⟨rfl, .inr ⟨trivial, rfl⟩⟩

theorem serves_call (he : e = .termInput ∨ e = .termGetChar) {s : Session} (h : s.input = encode cs) :
    ∃ given rest, Takes e cs given rest ∧ (e.run [] s).2.input = encode rest ∧
      ((e.run [] s).2.bytes (e.run [] s).1.pointer = encode given ∨
        (e.run [] s).1.pointer = .static .emptyString ∧ (e.run [] s).2.abort.isSome = true) := by
  rcases he with rfl | rfl
  · obtain ⟨given, rest, htakes, hread⟩ := takes_line cs
    have hrun : Entry.termInput.run [] s = stringResult ({ s with input := encode rest }.allocString (encode given)) := by
      simp only [Entry.run, inputLine, h, hread]
    rw [hrun]
    exact ⟨given, rest, htakes, allocString_gives _ _⟩
  · obtain ⟨given, rest, htakes, hread⟩ := takes_letter cs
    have hrun : Entry.termGetChar.run [] s = stringResult ({ s with input := encode rest }.allocString (encode given)) := by
      simp only [Entry.run, inputLetter, h, hread]
    rw [hrun]
    exact ⟨given, rest, htakes, allocString_gives _ _⟩

/-- Calls for lines and letters, in any order, take characters from the front of the input and give what they take, but
for newlines and the return before one. What is left after each of them is the end of the input from some character on. -/
theorem input_consumed {s : Session} (hcalls : ∀ e ∈ calls, e = .termInput ∨ e = .termGetChar)
    (hinput : s.input = encode cs) :
    Serves calls cs (replies calls s) ∧ ∀ reply ∈ replies calls s, ∃ rest, rest <:+ cs ∧ reply.2.input = encode rest := by
  have hserves : Serves calls cs (replies calls s) := by
    induction calls generalizing cs s with
    | nil => exact .nil
    | cons e calls ih =>
      obtain ⟨he, hcalls⟩ := List.forall_mem_cons.mp hcalls
      obtain ⟨given, rest, htakes, hleft, hgives⟩ := serves_call he hinput
      exact .cons htakes hleft hgives (ih hcalls hleft)
  exact ⟨hserves, hserves.suffix⟩

/-- A line loses its return, a newline reads as empty, and a letter of two bytes is taken whole before the input ends. -/
theorem input_consumed_lines : let calls : List Entry := [.termInput, .termGetChar, .termGetChar, .termInput]
    let s : Session := { memory := Memory.new 100 100, input := encode "a\r\n\né".toList }
    Serves calls "a\r\n\né".toList (replies calls s) ∧
      (replies calls s).map (fun reply => reply.2.bytes reply.1.pointer) = [[0x61], [], [0xC3, 0xA9], []] := by
  intro calls s
  exact ⟨(input_consumed (by decide) rfl).1, by decide +kernel⟩

end Session

end Blockwork
