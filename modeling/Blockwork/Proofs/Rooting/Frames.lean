import Blockwork.Memory.Roots

/-! # Root frames of one function
Between the save and the restore of a function only frames of its own are open. -/

namespace Blockwork.Roots

structure Sub (r r' : Roots) : Prop where
  named : ∀ i ∈ r.named, i ∈ r'.named
  temps : ∀ p ∈ r.temps, p ∈ r'.temps

namespace Sub

variable {r r' : Roots}

theorem refl (r : Roots) : r.Sub r := ⟨fun _ => id, fun _ => id⟩

theorem trans (h : r.Sub r') (h' : r'.Sub r'') : r.Sub r'' :=
  ⟨fun i hi => h'.named i (h.named i hi), fun p hp => h'.temps p (h.temps p hp)⟩

theorem addTemp (p : Pointer) (h : r.Sub r') : r.Sub (r'.addTemp p) := by
  unfold Roots.addTemp
  split
  · exact h
  · exact ⟨h.named, fun q hq => Array.mem_push_of_mem _ (h.temps q hq)⟩

end Sub

/-- A frame is open on older roots. -/
structure Opened (low : Nat) (older r : Roots) : Prop where
  frames : r.frames = older.frames.push ⟨older.named.size, older.temps.size⟩
  marks : r.marks = older.marks
  named : ∃ more, r.named = older.named ++ more ∧ ∀ i ∈ more, low ≤ i
  temps : ∃ more, r.temps = older.temps ++ more

namespace Opened

variable {low : Nat} {older r : Roots}

theorem openFrame (low : Nat) (r : Roots) : Opened low r r.openFrame.2 :=
  ⟨rfl, rfl, ⟨#[], by simp [Roots.openFrame], by simp⟩, ⟨#[], by simp [Roots.openFrame]⟩⟩

theorem closeFrame (h : Opened low older r) : r.closeFrame = (none, older) := by
  obtain ⟨moreNamed, hnamed, -⟩ := h.named
  obtain ⟨moreTemps, htemps⟩ := h.temps
  simp [Roots.closeFrame, Roots.cutTo, h.frames, h.marks, hnamed, htemps]

theorem flush (h : Opened low older r) : Opened low older r.flush where
  frames := h.frames
  marks := h.marks
  named := h.named
  temps := by
    obtain ⟨more, htemps⟩ := h.temps
    refine ⟨#[], ?_⟩
    simp [Roots.flush, h.frames, htemps]

theorem addNamed (h : Opened low older r) (hi : low ≤ i) : Opened low older (r.addNamed i) where
  frames := h.frames
  marks := h.marks
  named := by
    obtain ⟨more, hnamed, hlow⟩ := h.named
    refine ⟨more.push i, by simp [Roots.addNamed, hnamed], fun j hj => ?_⟩
    rcases Array.mem_push.mp hj with hj | rfl
    · exact hlow j hj
    · exact hi
  temps := h.temps

theorem addTemp (p : Pointer) (h : Opened low older r) : Opened low older (r.addTemp p) := by
  unfold Roots.addTemp
  split
  · exact h
  · obtain ⟨more, htemps⟩ := h.temps
    exact ⟨h.frames, h.marks, h.named, more.push p, by simp [htemps]⟩

theorem sub (h : Opened low older r) : older.Sub r := by
  obtain ⟨named, hnamed, -⟩ := h.named
  obtain ⟨temps, htemps⟩ := h.temps
  constructor
  · intro i hi
    rw [hnamed]
    exact Array.mem_append_left _ hi
  · intro p hp
    rw [htemps]
    exact Array.mem_append_left _ hp

theorem mem_older (h : Opened low older r) (hi : i ∈ r.named) (hlow : i < low) : i ∈ older.named := by
  obtain ⟨more, hnamed, hmore⟩ := h.named
  rw [hnamed] at hi
  rcases Array.mem_append.mp hi with hi | hi
  · exact hi
  · exact absurd (hmore i hi) (Nat.not_le.mpr hlow)

end Opened

/-- The frames a function has opened since its save, innermost first, each with its bound and the roots
it was opened on. -/
inductive Frames (entry : Roots) : List (Nat × Roots) → Roots → Prop where
  | start : Frames entry [] entry.save
  | frame {low : Nat} {older r : Roots} {fs : List (Nat × Roots)} : Frames entry fs older →
      Opened low older r → Frames entry ((low, older) :: fs) r

namespace Frames

variable {entry r : Roots} {fs : List (Nat × Roots)}

theorem marks (h : Frames entry fs r) : r.marks = entry.marks.push entry.depth := by
  induction h with
  | start => rfl
  | frame _ ho ih => exact ho.marks.trans ih

theorem named (h : Frames entry fs r) : ∃ more, r.named = entry.named ++ more := by
  induction h with
  | start => exact ⟨#[], by simp [save]⟩
  | frame _ ho ih =>
    obtain ⟨more, hmore⟩ := ih
    obtain ⟨new, hnew, -⟩ := ho.named
    exact ⟨more ++ new, by rw [hnew, hmore, Array.append_assoc]⟩

theorem temps (h : Frames entry fs r) : ∃ more, r.temps = entry.temps ++ more := by
  induction h with
  | start => exact ⟨#[], by simp [save]⟩
  | frame _ ho ih =>
    obtain ⟨more, hmore⟩ := ih
    obtain ⟨new, hnew⟩ := ho.temps
    exact ⟨more ++ new, by rw [hnew, hmore, Array.append_assoc]⟩

theorem frames (h : Frames entry fs r) :
    r = entry.save ∨ ∃ more, r.frames = entry.frames.push ⟨entry.named.size, entry.temps.size⟩ ++ more := by
  induction h with
  | start => exact Or.inl rfl
  | frame _ ho ih =>
    refine Or.inr ?_
    rcases ih with rfl | ⟨more, hmore⟩
    · exact ⟨#[], by simpa [save] using ho.frames⟩
    · exact ⟨_, by rw [ho.frames, hmore, Array.append_push]⟩

theorem restore (h : Frames entry fs r) : r.restore = (none, entry) := by
  have hmarks := h.marks
  obtain ⟨moreNamed, hnamed⟩ := h.named
  obtain ⟨moreTemps, htemps⟩ := h.temps
  rcases h.frames with rfl | ⟨more, hmore⟩
  · simp [Roots.restore, save, depth]
  · have hfirst : r.frames[entry.depth]? = some ⟨entry.named.size, entry.temps.size⟩ := by
      simp [hmore, depth, Array.getElem?_append]
    have hframes : r.frames.extract 0 entry.depth = entry.frames := by
      apply Array.ext'
      simp [hmore, depth]
    simp [Roots.restore, cutTo, hmarks, hfirst, hframes, hnamed, htemps]

theorem lift (hne : fs ≠ []) (hr : ∀ low older, (low, older) ∈ fs.head? → Opened low older r → Opened low older r')
    (h : Frames entry fs r) : Frames entry fs r' := by
  cases h with
  | start => exact absurd rfl hne
  | frame hf ho => exact .frame hf (hr _ _ rfl ho)

theorem flush (hne : fs ≠ []) (h : Frames entry fs r) : Frames entry fs r.flush :=
  h.lift hne fun _ _ _ => Opened.flush

theorem addTemp (p : Pointer) (hne : fs ≠ []) (h : Frames entry fs r) : Frames entry fs (r.addTemp p) :=
  h.lift hne fun _ _ _ => Opened.addTemp p

theorem addNamed (hne : fs ≠ []) (hi : ∀ x ∈ fs.head?, x.1 ≤ i) (h : Frames entry fs r) :
    Frames entry fs (r.addNamed i) :=
  h.lift hne fun _ _ hx ho => ho.addNamed (hi _ hx)

theorem sub (h : Frames entry fs r) : entry.Sub r := by
  induction h with
  | start => exact ⟨fun _ => id, fun _ => id⟩
  | frame _ ho ih => exact ih.trans ho.sub

theorem mem_entry (h : Frames entry fs r) (hlow : ∀ x ∈ fs, i < x.1) (hi : i ∈ r.named) : i ∈ entry.named := by
  induction h with
  | start => exact hi
  | frame _ ho ih =>
    refine ih (fun x hx => hlow x (List.mem_cons_of_mem _ hx)) ?_
    exact ho.mem_older hi (hlow _ List.mem_cons_self)

end Frames

end Blockwork.Roots
