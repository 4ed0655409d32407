import Blockwork.Proofs.Accounting
import Blockwork.Proofs.Rooting.Sound

/-! # Nested root scopes
Frames and saved marks are two kinds of brackets over the same two stacks. -/

namespace Blockwork

open Array (toList_shrink size_shrink length_toList ext')

open List (mem_singleton mem_append mem_cons_self length length_append length_cons cons)

namespace Roots

variable {older r r' : Roots} {front back : List RootFrame} {f : RootFrame}

/-- The frames from `f` on are closed, and both stacks are cut to the heights that `f` remembers. -/
structure Cuts (front : List RootFrame) (f : RootFrame) (back : List RootFrame) (r r' : Roots) : Prop where
  before : r.frames.toList = front ++ f :: back
  frames : r'.frames.toList = front
  named : r'.named = r.named.shrink f.named
  temps : r'.temps = r.temps.shrink f.temps

theorem closeFrame_cases (r : Roots) : (r.depth = 0 ∧ r.closeFrame = (some .underflow, r)) ∨
      ∃ front f r', r.closeFrame = (none, r') ∧ Cuts front f [] r r' ∧ r'.marks = r.marks := by
  unfold closeFrame
  cases hback : r.frames.back? with
  | none =>
    rw [Array.back?_eq_none_iff] at hback
    exact .inl ⟨by rw [depth, hback]; rfl, rfl⟩
  | some f =>
    rw [← Array.getLast?_toList, List.getLast?_eq_some_iff] at hback
    obtain ⟨front, hfront⟩ := hback
    refine .inr ⟨front, f, _, rfl, ⟨hfront, ?_, rfl, rfl⟩, rfl⟩
    rw [Array.toList_pop, hfront, List.dropLast_concat]

theorem restore_cases (r : Roots) : (r.savedDepth = 0 ∧ r.restore = (some .underflow, r)) ∨
      ∃ ks mark r', r.marks.toList = ks ++ [mark] ∧ r.restore = (none, r') ∧ r'.marks.toList = ks ∧
        ((r.depth ≤ mark ∧ r' = { r with marks := r.marks.pop }) ∨
          ∃ front f back, front.length = mark ∧ Cuts front f back r r') := by
  unfold restore
  cases hback : r.marks.back? with
  | none =>
    rw [Array.back?_eq_none_iff] at hback
    exact .inl ⟨by rw [savedDepth, hback]; rfl, rfl⟩
  | some mark =>
    rw [← Array.getLast?_toList, List.getLast?_eq_some_iff] at hback
    obtain ⟨ks, hks⟩ := hback
    have hpop : r.marks.pop.toList = ks := by rw [Array.toList_pop, hks, List.dropLast_concat]
    refine .inr ⟨ks, mark, ?_⟩
    cases hframe : r.frames[mark]? with
    | none =>
      simp only [hframe]
      exact ⟨_, hks, rfl, hpop, .inl ⟨Array.getElem?_eq_none_iff.mp hframe, rfl⟩⟩
    | some f =>
      simp only [hframe]
      rw [← Array.getElem?_toList] at hframe
      obtain ⟨hlt, hget⟩ := List.getElem?_eq_some_iff.mp hframe
      refine ⟨_, hks, rfl, hpop, .inr ⟨r.frames.toList.take mark, f, r.frames.toList.drop (mark + 1), ?_, ?_⟩⟩
      · exact List.length_take_of_le (Nat.le_of_lt hlt)
      · refine ⟨?_, toList_shrink, rfl, rfl⟩
        rw [← hget, List.getElem_cons_drop, List.take_append_drop]

/-! ### Order of frames -/

/-- The heights that open frames remember never fall, and both stacks are at least as high. -/
structure Ordered (r : Roots) : Prop where
  rising : r.frames.toList.Pairwise fun f g => f.named ≤ g.named ∧ f.temps ≤ g.temps
  below : ∀ f ∈ r.frames.toList, f.named ≤ r.named.size ∧ f.temps ≤ r.temps.size

namespace Ordered

theorem openFrame (h : r.Ordered) : r.openFrame.2.Ordered := by
  have hframes : r.openFrame.2.frames.toList = r.frames.toList ++ [⟨r.named.size, r.temps.size⟩] := by
    simp [Roots.openFrame]
  refine ⟨?_, fun f hf => ?_⟩
  · rw [hframes, List.pairwise_append]
    refine ⟨h.rising, List.pairwise_singleton _ _, fun f hf g hg => ?_⟩
    obtain rfl := mem_singleton.mp hg
    exact h.below f hf
  · rw [hframes] at hf
    rcases mem_append.mp hf with hf | hf
    · exact h.below f hf
    · obtain rfl := mem_singleton.mp hf
      exact ⟨Nat.le_refl _, Nat.le_refl _⟩

theorem cut (h : r.Ordered) (hcut : Cuts front f back r r') : r'.Ordered := by
  have hf := h.below f (by rw [hcut.before]; simp)
  have hrising := h.rising
  rw [hcut.before, List.pairwise_append] at hrising
  refine ⟨hcut.frames ▸ hrising.1, fun g hg => ?_⟩
  rw [hcut.frames] at hg
  have hle := hrising.2.2 g hg f mem_cons_self
  rw [hcut.named, hcut.temps, size_shrink, size_shrink]
  omega

theorem closeFrame (h : r.Ordered) : r.closeFrame.2.Ordered := by
  rcases closeFrame_cases r with ⟨-, hsame⟩ | ⟨front, f, r', hclose, hcut, -⟩
  · rw [hsame]
    exact h
  · rw [hclose]
    exact h.cut hcut

theorem restore (h : r.Ordered) : r.restore.2.Ordered := by
  rcases restore_cases r with ⟨-, hsame⟩ | ⟨ks, mark, r', -, hrestore, -, ⟨-, rfl⟩ | ⟨front, f, back, -, hcut⟩⟩
  · rw [hsame]
    exact h
  · rw [hrestore]
    exact ⟨h.rising, h.below⟩
  · rw [hrestore]
    exact h.cut hcut

theorem flush (h : r.Ordered) : r.flush.Ordered := by
  refine ⟨h.rising, fun f hf => ?_⟩
  obtain ⟨front, last, hlast⟩ : ∃ front last, r.frames.toList = front ++ [last] :=
    ⟨_, _, (List.dropLast_concat_getLast (List.ne_nil_of_mem hf)).symm⟩
  have hback : r.frames.back? = some last := by
    rw [← Array.getLast?_toList, hlast, List.getLast?_concat]
  have hf' := h.below f hf
  have hle : f.temps ≤ last.temps := by
    have hf : f ∈ r.frames.toList := hf
    have hrising := h.rising
    rw [hlast] at hf hrising
    rcases mem_append.mp hf with hf | hf
    · exact ((List.pairwise_append.mp hrising).2.2 f hf last mem_cons_self).2
    · obtain rfl := mem_singleton.mp hf
      exact Nat.le_refl _
  simp only [Roots.flush, hback, Option.map_some, Option.getD_some, size_shrink]
  omega

theorem grow (h : r.Ordered) (hframes : r'.frames = r.frames) (hnamed : r.named.size ≤ r'.named.size)
    (htemps : r.temps.size ≤ r'.temps.size) : r'.Ordered := by
  refine ⟨hframes ▸ h.rising, fun f hf => ?_⟩
  have hf' := h.below f (hframes ▸ hf)
  omega

theorem addNamed (h : r.Ordered) (i : Nat) : (r.addNamed i).Ordered :=
  h.grow rfl (by simp [Roots.addNamed]) (Nat.le_refl _)

theorem addTemp (h : r.Ordered) (p : Pointer) : (r.addTemp p).Ordered := by
  unfold Roots.addTemp
  split
  · exact h
  · exact h.grow rfl (Nat.le_refl _) (by simp)

end Ordered

/-! ### Above a frame -/

/-- The frame that was opened on older roots is still open, and whatever was done since lies above it. -/
structure Above (older r : Roots) : Prop where
  frames : ∃ more, r.frames.toList = older.frames.toList ++ ⟨older.named.size, older.temps.size⟩ :: more ∧
    ∀ f ∈ more, older.named.size ≤ f.named ∧ older.temps.size ≤ f.temps
  named : older.named.toList <+: r.named.toList
  temps : older.temps.toList <+: r.temps.toList
  marks : ∃ new, r.marks.toList = older.marks.toList ++ new ∧ ∀ k ∈ new, older.depth < k

namespace Above

theorem openFrame (r : Roots) : Above r r.openFrame.2 where
  frames := ⟨[], by simp [Roots.openFrame], List.forall_mem_nil _⟩
  named := List.prefix_refl _
  temps := List.prefix_refl _
  marks := ⟨[], by simp [Roots.openFrame], List.forall_mem_nil _⟩

theorem depth_lt (h : Above older r) : older.depth < r.depth := by
  obtain ⟨more, hmore, -⟩ := h.frames
  have hlength := congrArg length hmore
  simp only [length_toList, length_append, length_cons] at hlength
  simp only [depth]
  omega

theorem split (h : Above older r) (hframes : r.frames.toList = front ++ f :: back)
    (hfront : older.depth < front.length) : (older.named.size ≤ f.named ∧ older.temps.size ≤ f.temps) ∧
      ∃ more, front = older.frames.toList ++ ⟨older.named.size, older.temps.size⟩ :: more ∧
        ∀ g ∈ more, older.named.size ≤ g.named ∧ older.temps.size ≤ g.temps := by
  obtain ⟨more, hmore, hhigh⟩ := h.frames
  rw [hframes, List.append_cons older.frames.toList] at hmore
  have hshort : (older.frames.toList ++ [(⟨older.named.size, older.temps.size⟩ : RootFrame)]).length ≤
      front.length := by
    rw [length_append, length_toList]
    exact hfront
  obtain ⟨more', rfl⟩ := List.prefix_of_prefix_length_le ⟨more, hmore.symm⟩ (List.prefix_append front _) hshort
  rw [List.append_assoc, List.append_cancel_left_eq] at hmore
  subst hmore
  refine ⟨hhigh f (List.mem_append_right _ mem_cons_self), more', (List.append_cons ..).symm, fun g hg => ?_⟩
  exact hhigh g (List.mem_append_left _ hg)

theorem cut (h : Above older r) (hcut : Cuts front f back r r') (hfront : older.depth < front.length)
    (hmarks : ∃ new, r'.marks.toList = older.marks.toList ++ new ∧ ∀ k ∈ new, older.depth < k) : Above older r' := by
  obtain ⟨⟨hnamed, htemps⟩, more, hmore, hhigh⟩ := h.split hcut.before hfront
  refine ⟨⟨more, hcut.frames.trans hmore, hhigh⟩, ?_, ?_, hmarks⟩
  · rw [hcut.named, toList_shrink, List.prefix_take_iff]
    exact ⟨h.named, hnamed⟩
  · rw [hcut.temps, toList_shrink, List.prefix_take_iff]
    exact ⟨h.temps, htemps⟩

theorem closeFrame (h : Above older r) (hdepth : older.depth < r.closeFrame.2.depth) :
    Above older r.closeFrame.2 := by
  rcases closeFrame_cases r with ⟨-, hsame⟩ | ⟨front, f, r', hclose, hcut, hmarks⟩
  · rw [hsame]
    exact h
  · rw [hclose] at hdepth ⊢
    refine h.cut hcut ?_ (hmarks ▸ h.marks)
    rwa [← hcut.frames, length_toList]

theorem restore (h : Above older r) (hsaved : older.savedDepth ≤ r.restore.2.savedDepth) :
    Above older r.restore.2 := by
  rcases restore_cases r with ⟨-, hsame⟩ | ⟨ks, mark, r', hlast, hrestore, hks, hcases⟩
  · rw [hsame]
    exact h
  rw [hrestore] at hsaved ⊢
  -- the mark that is popped was saved above the frame, so it is none of the older ones
  obtain ⟨new, hnew, hhigh⟩ := h.marks
  have hlong : older.marks.toList.length ≤ ks.length := by
    rw [← hks]
    exact hsaved
  rw [hlast] at hnew
  obtain ⟨kept, rfl⟩ := List.prefix_of_prefix_length_le ⟨new, hnew.symm⟩ (List.prefix_append ks _) hlong
  rw [List.append_assoc, List.append_cancel_left_eq] at hnew
  subst hnew
  have hmarks : ∃ new, r'.marks.toList = older.marks.toList ++ new ∧ ∀ k ∈ new, older.depth < k :=
    ⟨kept, hks, fun k hk => hhigh k (List.mem_append_left _ hk)⟩
  have hmark : older.depth < mark := hhigh mark (List.mem_append_right _ mem_cons_self)
  rcases hcases with ⟨-, rfl⟩ | ⟨front, f, back, rfl, hcut⟩
  · exact ⟨h.frames, h.named, h.temps, hmarks⟩
  · exact h.cut hcut hmark hmarks

theorem innermost (h : Above older r) : ∃ f, r.frames.back? = some f ∧ older.temps.size ≤ f.temps := by
  obtain ⟨more, hmore, hhigh⟩ := h.frames
  rw [← Array.getLast?_toList, hmore]
  rcases List.eq_nil_or_concat more with rfl | ⟨more, f, rfl⟩
  · exact ⟨_, List.getLast?_concat, Nat.le_refl _⟩
  · rw [List.concat_eq_append] at hhigh ⊢
    refine ⟨f, ?_, (hhigh f (List.mem_append_right _ mem_cons_self)).2⟩
    rw [← List.cons_append, ← List.append_assoc, List.getLast?_concat]

theorem flush (h : Above older r) : Above older r.flush := by
  obtain ⟨f, hf, hhigh⟩ := h.innermost
  refine ⟨h.frames, h.named, ?_, h.marks⟩
  simp only [Roots.flush, hf, Option.map_some, Option.getD_some, toList_shrink, List.prefix_take_iff]
  exact ⟨h.temps, hhigh⟩

theorem reopen (h : Above older r) : Above older r.openFrame.2 := by
  obtain ⟨more, hmore, hhigh⟩ := h.frames
  refine ⟨⟨more ++ [⟨r.named.size, r.temps.size⟩], ?_, fun f hf => ?_⟩, h.named, h.temps, h.marks⟩
  · simp [Roots.openFrame, hmore]
  · rcases mem_append.mp hf with hf | hf
    · exact hhigh f hf
    · obtain rfl := mem_singleton.mp hf
      exact ⟨h.named.length_le, h.temps.length_le⟩

theorem save (h : Above older r) : Above older r.save := by
  obtain ⟨new, hnew, hhigh⟩ := h.marks
  refine ⟨h.frames, h.named, h.temps, new ++ [r.depth], ?_, fun k hk => ?_⟩
  · simp [Roots.save, hnew]
  · rcases mem_append.mp hk with hk | hk
    · exact hhigh k hk
    · obtain rfl := mem_singleton.mp hk
      exact h.depth_lt

theorem addNamed (h : Above older r) (i : Nat) : Above older (r.addNamed i) :=
  ⟨h.frames, h.named.trans (by simp [Roots.addNamed]), h.temps, h.marks⟩

theorem addTemp (h : Above older r) (p : Pointer) : Above older (r.addTemp p) := by
  unfold Roots.addTemp
  split
  · exact h
  · exact ⟨h.frames, h.named, h.temps.trans (by simp), h.marks⟩

theorem reaches (h : Above older r) (hcut : Cuts front f back r r') (hfront : front.length = older.depth) :
    r' = { older with marks := r'.marks } := by
  obtain ⟨more, hmore, -⟩ := h.frames
  obtain ⟨named, hnamed⟩ := h.named
  obtain ⟨temps, htemps⟩ := h.temps
  obtain ⟨rfl, hf⟩ := List.append_inj (hcut.before.symm.trans hmore) hfront
  obtain ⟨rfl, -⟩ := cons.inj hf
  have hframes' : r'.frames = older.frames := ext' hcut.frames
  have hnamed' : r'.named = older.named := by
    apply ext'
    rw [hcut.named, toList_shrink, ← hnamed]
    exact List.take_left
  have htemps' : r'.temps = older.temps := by
    apply ext'
    rw [hcut.temps, toList_shrink, ← htemps]
    exact List.take_left
  rw [← hframes', ← hnamed', ← htemps']

theorem closes (h : Above older r) (hdepth : r.depth = older.depth + 1) :
    r.closeFrame = (none, { older with marks := r.marks }) := by
  rcases closeFrame_cases r with ⟨hzero, -⟩ | ⟨front, f, r', hclose, hcut, hmarks⟩
  · omega
  · have hlength := congrArg length hcut.before
    simp only [length_toList, length_append, length_cons, List.length_nil] at hlength
    simp only [depth] at hdepth
    rw [hclose, h.reaches hcut (by simp only [depth]; omega), hmarks]

theorem returns (h : Above older.save r) (hsaved : r.savedDepth = older.savedDepth + 1) :
    r.restore = (none, older) := by
  obtain ⟨new, hnew, -⟩ := h.marks
  have hmarks : r.marks.toList = older.marks.toList ++ [older.depth] := by
    have hlength := congrArg length hnew
    simp only [Roots.save, Array.toList_push, length_append, length_toList, List.length_singleton]
      at hlength
    simp only [savedDepth] at hsaved
    obtain rfl := List.length_eq_zero_iff.mp (show new.length = 0 by omega)
    rw [hnew, List.append_nil, Roots.save, Array.toList_push]
  have hdepth : older.depth < r.depth := h.depth_lt
  rcases restore_cases r with ⟨hzero, -⟩ | ⟨ks, mark, r', hlast, hrestore, hks, hcases⟩
  · omega
  · obtain ⟨rfl, hmark⟩ := List.append_inj' (hlast.symm.trans hmarks) rfl
    obtain ⟨rfl, -⟩ := cons.inj hmark
    rcases hcases with ⟨hle, -⟩ | ⟨front, f, back, hfront, hcut⟩
    · omega
    · have hmarks' : r'.marks = older.marks := ext' hks
      rw [hrestore, h.reaches hcut hfront, hmarks', Roots.save]

end Above

theorem depth_eq_of_restore (h : r.restore = (none, r')) :
    ∃ mark, r.marks.back? = some mark ∧ r'.depth = min r.depth mark := by
  rcases restore_cases r with ⟨-, hsame⟩ | ⟨ks, mark, r₁, hlast, hrestore, -, hcases⟩
  · cases hsame.symm.trans h
  · cases hrestore.symm.trans h
    refine ⟨mark, ?_, ?_⟩
    · rw [← Array.getLast?_toList, hlast, List.getLast?_concat]
    · rcases hcases with ⟨hle, rfl⟩ | ⟨front, f, back, rfl, hcut⟩
      · exact (Nat.min_eq_left hle).symm
      · have hlength := congrArg length hcut.before
        have hlength' := congrArg length hcut.frames
        simp only [length_toList, length_append, length_cons] at hlength hlength'
        simp only [depth]
        omega

end Roots

namespace Memory

variable {m : Memory} {older : Roots}

theorem roots_malloc {P : Roots → Prop} (h : P m.roots) (hp : ∀ p, P (m.roots.addTemp p)) (size : Nat)
    (content : Payload) : P (m.malloc size content).2.roots := by
  obtain ⟨m', hm', hok | ⟨e, herror⟩⟩ := malloc_cases m size content
  · rw [hok, grant, (room_cases hm').1]
    exact hp (.chunk m'.heap.next)
  · rw [herror, (room_cases hm').1]
    exact h

theorem ordered_run (h : m.roots.Ordered) (a : Act) : (a.run m).roots.Ordered := by
  cases a with
  | malloc size kind => exact roots_malloc h h.addTemp size kind.zeroed
  | collect => exact h
  | flush => exact h.flush
  | rootBegin => exact h.openFrame
  | rootEnd => exact h.closeFrame
  | rootSave => exact ⟨h.rising, h.below⟩
  | rootRestore => exact h.restore
  | addRoot slot => exact h.addNamed slot
  | addTempRoot p => exact h.addTemp p
  | store slot v => exact h

theorem ordered_after (h : m.roots.Ordered) (acts : List Act) : (m.after acts).roots.Ordered := by
  induction acts generalizing m with
  | nil => exact h
  | cons a acts ih => exact ih (ordered_run h a)

/-- After each of some operations at least `frames` frames are open and at least `marks` marks are saved. -/
def Keeps (frames marks : Nat) : Memory → List Act → Prop
  | _, [] => True
  | m, a :: acts => frames ≤ (a.run m).roots.depth ∧ marks ≤ (a.run m).roots.savedDepth ∧
      Keeps frames marks (a.run m) acts

instance decidableKeeps (frames marks : Nat) : ∀ (m : Memory) (acts : List Act), Decidable (Keeps frames marks m acts)
  | _, [] => .isTrue trivial
  | m, a :: acts =>
    have := decidableKeeps frames marks (a.run m) acts
    inferInstanceAs (Decidable (_ ∧ _ ∧ _))

theorem above_run (h : Roots.Above older m.roots) (a : Act) (hdepth : older.depth < (a.run m).roots.depth)
    (hsaved : older.savedDepth ≤ (a.run m).roots.savedDepth) : Roots.Above older (a.run m).roots := by
  cases a with
  | malloc size kind => exact roots_malloc h h.addTemp size kind.zeroed
  | collect => exact h
  | flush => exact h.flush
  | rootBegin => exact h.reopen
  | rootEnd => exact h.closeFrame hdepth
  | rootSave => exact h.save
  | rootRestore => exact h.restore hsaved
  | addRoot slot => exact h.addNamed slot
  | addTempRoot p => exact h.addTemp p
  | store slot v => exact h

theorem above_after (h : Roots.Above older m.roots) (hkeeps : Keeps (older.depth + 1) older.savedDepth m acts) :
    Roots.Above older (m.after acts).roots := by
  induction acts generalizing m with
  | nil => exact h
  | cons a acts ih => exact ih (above_run h a hkeeps.1 hkeeps.2.1) hkeeps.2.2

/-- Frames are ordered by the heights they remember, after any operations. Where these never close a frame nor return
to a mark from before it, closing the frame, or returning to the mark saved just before it, gives back the roots from
before. A restore that succeeds leaves no more frames than the mark tells; a close without a frame and a restore
without a mark fail and change nothing. -/
theorem root_scopes_nest : (∀ (low limit : Nat) (slots : Array Value) (acts : List Act),
      (after { Memory.new low limit with slots } acts).roots.Ordered) ∧
    (∀ (m : Memory) (acts : List Act), Keeps (m.roots.depth + 1) m.roots.savedDepth (Act.rootBegin.run m) acts →
      (after m (.rootBegin :: acts)).roots.depth = m.roots.depth + 1 →
      (after m (.rootBegin :: acts)).roots.closeFrame =
        (none, { m.roots with marks := (after m (.rootBegin :: acts)).roots.marks })) ∧
    (∀ (m : Memory) (acts : List Act),
      Keeps (m.roots.depth + 1) (m.roots.savedDepth + 1) (after m [.rootSave, .rootBegin]) acts →
      (after m (.rootSave :: .rootBegin :: acts)).roots.savedDepth = m.roots.savedDepth + 1 →
      (after m (.rootSave :: .rootBegin :: acts)).roots.restore = (none, m.roots)) ∧
    (∀ r r' : Roots, r.restore = (none, r') → ∃ mark, r.marks.back? = some mark ∧ r'.depth = min r.depth mark) ∧
    (∀ r : Roots, r.depth = 0 → r.closeFrame = (some .underflow, r)) ∧
    ∀ r : Roots, r.savedDepth = 0 → r.restore = (some .underflow, r) := by
  refine ⟨fun low limit slots acts => ?_, fun m acts hkeeps hdepth => ?_, fun m acts hkeeps hsaved => ?_,
    fun r r' => Roots.depth_eq_of_restore, fun r hzero => ?_, fun r hzero => ?_⟩
  · exact ordered_after ⟨.nil, List.forall_mem_nil _⟩ acts
  · exact (above_after (.openFrame m.roots) hkeeps).closes hdepth
  · have hbegun : Roots.Above m.roots.save (after m [.rootSave, .rootBegin]).roots := .openFrame m.roots.save
    refine (above_after hbegun ?_).returns hsaved
    have hsaves : m.roots.save.savedDepth = m.roots.savedDepth + 1 := Array.size_push _
    rw [hsaves]
    exact hkeeps
  · rcases Roots.closeFrame_cases r with ⟨-, hsame⟩ | ⟨front, f, r', -, hcut, -⟩
    · exact hsame
    · have hlength := congrArg List.length hcut.before
      simp only [Array.length_toList, List.length_append, List.length_cons] at hlength
      simp only [Roots.depth] at hzero
      omega
  · rcases Roots.restore_cases r with ⟨-, hsame⟩ | ⟨ks, mark, r', hlast, -⟩
    · exact hsame
    · have hlength := congrArg List.length hlast
      simp only [Array.length_toList, List.length_append, List.length_cons] at hlength
      simp only [Roots.savedDepth] at hzero
      omega

/-- Brackets of both kinds, one of them left early by a restore, with an allocation and a collection among them. -/
def crossing : List Act :=
  [.malloc 16 .any, .addRoot 1, .rootSave, .rootBegin, .addTempRoot (.chunk 0), .rootBegin, .flush, .rootRestore,
   .collect, .rootBegin, .addRoot 0, .rootEnd, .addTempRoot (.chunk 0)]

theorem root_scopes_nest_crossing : ∃ m, m = after { Memory.new 100 1000 with slots := #[.zero, .zero] }
        [.rootEnd, .addRoot 0, .rootBegin, .addTempRoot (.static .nothing)] ∧
      Keeps (m.roots.depth + 1) m.roots.savedDepth (Act.rootBegin.run m) crossing ∧
      (after m (.rootBegin :: crossing)).roots.temps.size = 3 ∧
      (after m (.rootBegin :: crossing)).roots.closeFrame = (none, { m.roots with marks := #[] }) ∧
      Keeps (m.roots.depth + 1) (m.roots.savedDepth + 1) (after m [.rootSave, .rootBegin]) crossing ∧
      (after m (.rootSave :: .rootBegin :: crossing)).roots.restore = (none, m.roots) := by
  refine ⟨_, rfl, by decide +kernel, by decide +kernel, ?_, by decide +kernel, ?_⟩
  · exact root_scopes_nest.2.1 _ crossing (by decide +kernel) (by decide +kernel)
  · exact root_scopes_nest.2.2.1 _ crossing (by decide +kernel) (by decide +kernel)

end Memory

end Blockwork
