import Blockwork.Proofs.Rooting.Requests
import Blockwork.Proofs.Tracing.Scoped

/-! # Where a running function stands
`StandsAt` says that the rest of the current body and what the continuations hold is well scoped from the number
of the next instruction on. -/

namespace Blockwork.Tracing

open Typing Instr Machine Activation

variable {W : World} {F G F' : Facts} {k : Nat}

theorem Due.mono (h : Due W k F) (hF : F.written ⊆ G.written) : Due W k G :=
  fun e he hek => hF (h e he hek)

theorem Scoped.due (h : Scoped W k F is F') (hend : Due W (k + widthIn is) F') : Due W k F := by
  induction h with
  | nil => exact hend
  | leaf hdue _ _ _ => exact hdue
  | rooted _ _ ihbody ih =>
    rw [widthIn, width, ← Nat.add_assoc] at hend
    exact ihbody (ih hend)
  | ifThen _ _ hle _ ihbody ih | countLoop _ _ hle _ ihbody ih =>
    rw [widthIn, width, ← Nat.add_assoc] at hend
    exact ihbody ((ih hend).mono hle.written)
  | whileLoop _ _ _ _ hle' _ ihtest ihbody ih =>
    rw [widthIn, width, ← Nat.add_assoc, ← Nat.add_assoc] at hend
    exact ihtest (ihbody ((ih hend).mono hle'.written))
  | foreverLoop _ hle _ ihbody ih =>
    rw [widthIn, width, ← Nat.add_assoc] at hend
    exact ihbody ((ih hend).mono hle.written)

inductive Resumes (W : World) : Nat → Facts → List Kont → Prop where
  | done {k : Nat} {F : Facts} : Due W k F → Resumes W k F []
  | next {k : Nat} {F G F' : Facts} {rest : List Instr} {ks : List Kont} : G.Le F → Scoped W k G rest F' →
      Resumes W (k + widthIn rest) F' ks → Resumes W k F (.next rest :: ks)
  | closeRoots {k : Nat} {F F' : Facts} {rest : List Instr} {ks : List Kont} : Scoped W k F rest F' →
      Resumes W (k + widthIn rest) F' ks → Resumes W k F (.closeRoots rest :: ks)
  | countLoop {k : Nat} {F G F₁ F' : Facts} {left : Int64} {body rest : List Instr} {ks : List Kont} :
      G.Le F → Scoped W k G body F₁ → G.Le F₁ → Scoped W (k + widthIn body) G rest F' →
      Resumes W (k + widthIn body + widthIn rest) F' ks →
      Resumes W (k + widthIn body) F (.countLoop left body rest :: ks)
  | whileTest {k : Nat} {F G F₂ F' : Facts} {c : Reg} {test body rest : List Instr} {ks : List Kont} :
      Scoped W k G test F → G.Le F → Has W.kinds F.written c (.value .bool) →
      Scoped W (k + widthIn test) F body F₂ → F.Le F₂ →
      Scoped W (k + widthIn test + widthIn body) F rest F' →
      Resumes W (k + widthIn test + widthIn body + widthIn rest) F' ks →
      Resumes W (k + widthIn test) F (.whileTest test c body rest :: ks)
  | whileBody {k : Nat} {F G F₁ F₂ F' : Facts} {c : Reg} {test body rest : List Instr} {ks : List Kont} :
      F₁.Le F → Scoped W k G test F₁ → G.Le F₁ → Has W.kinds F₁.written c (.value .bool) →
      Scoped W (k + widthIn test) F₁ body F₂ → F₁.Le F₂ →
      Scoped W (k + widthIn test + widthIn body) F₁ rest F' →
      Resumes W (k + widthIn test + widthIn body + widthIn rest) F' ks →
      Resumes W (k + widthIn test + widthIn body) F (.whileBody test c body rest :: ks)
  | foreverLoop {k : Nat} {F G F₁ : Facts} {body : List Instr} {ks : List Kont} : G.Le F →
      Scoped W k G body F₁ → G.Le F₁ → Due W (k + widthIn body) G →
      Resumes W (k + widthIn body) F (.foreverLoop body :: ks)

theorem Resumes.due (h : Resumes W k F ks) : Due W k F := by
  induction h with
  | done hdue => exact hdue
  | next hle hrest _ ih => exact (hrest.due ih).mono hle.written
  | closeRoots hrest _ ih => exact hrest.due ih
  | countLoop hle _ _ hrest _ ih => exact (hrest.due ih).mono hle.written
  | whileTest _ _ _ hbody hle hrest _ ih => exact hbody.due ((hrest.due ih).mono hle.written)
  | whileBody hle _ _ _ _ _ hrest _ ih => exact (hrest.due ih).mono hle.written
  | foreverLoop hle _ _ hdue => exact hdue.mono hle.written

/-- A function stands before the instruction with number `k`: its code and all that follows it. -/
def StandsAt (W : World) (k : Nat) (F : Facts) (code : List Instr) (ks : List Kont) : Prop :=
  ∃ F', Scoped W k F code F' ∧ Resumes W (k + widthIn code) F' ks

namespace StandsAt

variable {body test rest : List Instr} {c : Reg} {ks : List Kont} {left : Int64}

theorem due (h : StandsAt W k F is ks) : Due W k F := by
  obtain ⟨F', hcode, hks⟩ := h
  exact hcode.due hks.due

theorem resumes (h : StandsAt W k F [] ks) : Resumes W k F ks := by
  obtain ⟨F', hcode, hks⟩ := h
  cases hcode with
  | nil => exact hks

theorem rooted (h : StandsAt W k F (.rooted body :: is) ks) : StandsAt W k F body (.closeRoots is :: ks) := by
  obtain ⟨F', hcode, hks⟩ := h
  cases hcode with
  | leaf _ hleads _ => cases hleads.isLeaf
  | @rooted _ _ F₁ _ _ _ hbody hrest =>
    rw [widthIn, width, ← Nat.add_assoc] at hks
    exact ⟨F₁, hbody, .closeRoots hrest hks⟩

theorem branch (h : StandsAt W k F (.ifThen c body :: is) ks) :
    Has W.kinds F.written c (.value .bool) ∧ StandsAt W k F body (.next is :: ks) ∧
      StandsAt W (k + widthIn body) F is ks := by
  obtain ⟨F', hcode, hks⟩ := h
  cases hcode with
  | leaf _ hleads _ => cases hleads.isLeaf
  | @ifThen _ _ F₁ _ _ _ _ hc hbody hle hrest =>
    rw [widthIn, width, ← Nat.add_assoc] at hks
    exact ⟨hc, ⟨F₁, hbody, .next hle hrest hks⟩, F', hrest, hks⟩

theorem count (h : StandsAt W k F (.countLoop c body :: is) ks) : Has W.kinds F.written c (.value .integer) ∧
      (∀ left, StandsAt W k F body (.countLoop left body is :: ks)) ∧ StandsAt W (k + widthIn body) F is ks := by
  obtain ⟨F', hcode, hks⟩ := h
  cases hcode with
  | leaf _ hleads _ => cases hleads.isLeaf
  | @countLoop _ _ F₁ _ _ _ _ hc hbody hle hrest =>
    rw [widthIn, width, ← Nat.add_assoc] at hks
    exact ⟨hc, fun left => ⟨F₁, hbody, .countLoop hle hbody hle hrest hks⟩, F', hrest, hks⟩

theorem tests (h : StandsAt W k F (.whileLoop test c body :: is) ks) :
    StandsAt W k F test (.whileTest test c body is :: ks) := by
  obtain ⟨F', hcode, hks⟩ := h
  cases hcode with
  | leaf _ hleads _ => cases hleads.isLeaf
  | @whileLoop _ _ F₁ _ _ _ _ _ _ htest hle hc hbody hle' hrest =>
    rw [widthIn, width, ← Nat.add_assoc, ← Nat.add_assoc] at hks
    exact ⟨F₁, htest, .whileTest htest hle hc hbody hle' hrest hks⟩

theorem forever (h : StandsAt W k F (.foreverLoop body :: is) ks) :
    StandsAt W k F body (.foreverLoop body :: ks) := by
  obtain ⟨F', hcode, hks⟩ := h
  cases hcode with
  | leaf _ hleads _ => cases hleads.isLeaf
  | @foreverLoop _ _ F₁ _ _ _ hbody hle hrest =>
    rw [widthIn, width, ← Nat.add_assoc] at hks
    exact ⟨F₁, hbody, .foreverLoop hle hbody hle (hrest.due hks.due)⟩

theorem next (h : StandsAt W k F [] (.next rest :: ks)) : ∃ G, G.Le F ∧ StandsAt W k G rest ks := by
  cases h.resumes with
  | next hle hrest hks => exact ⟨_, hle, _, hrest, hks⟩

theorem closeRoots (h : StandsAt W k F [] (.closeRoots rest :: ks)) : StandsAt W k F rest ks := by
  cases h.resumes with
  | closeRoots hrest hks => exact ⟨_, hrest, hks⟩

theorem recount (h : StandsAt W k F [] (.countLoop left body rest :: ks)) :
    ∃ G, G.Le F ∧ (∀ left', StandsAt W (k - widthIn body) G body (.countLoop left' body rest :: ks)) ∧
      StandsAt W k G rest ks := by
  cases h.resumes with
  | @countLoop k _ G F₁ F' _ _ _ _ hle hbody hle' hrest hks =>
    rw [Nat.add_sub_cancel]
    exact ⟨G, hle, fun left' => ⟨F₁, hbody, .countLoop hle' hbody hle' hrest hks⟩, F', hrest, hks⟩

theorem tested (h : StandsAt W k F [] (.whileTest test c body rest :: ks)) :
    Has W.kinds F.written c (.value .bool) ∧ StandsAt W k F body (.whileBody test c body rest :: ks) ∧
      StandsAt W (k + widthIn body) F rest ks := by
  cases h.resumes with
  | whileTest htest hle hc hbody hle' hrest hks =>
    exact ⟨hc, ⟨_, hbody, .whileBody hle' htest hle hc hbody hle' hrest hks⟩, _, hrest, hks⟩

theorem retest (h : StandsAt W k F [] (.whileBody test c body rest :: ks)) :
    ∃ G, G.Le F ∧ StandsAt W (k - (widthIn test + widthIn body)) G test (.whileTest test c body rest :: ks) := by
  cases h.resumes with
  | @whileBody k _ G F₁ _ _ _ _ _ _ _ hle htest hle' hc hbody hle'' hrest hks =>
    rw [Nat.add_assoc, Nat.add_sub_cancel]
    exact ⟨G, hle'.trans hle, F₁, htest, .whileTest htest hle' hc hbody hle'' hrest hks⟩

theorem again (h : StandsAt W k F [] (.foreverLoop body :: ks)) :
    ∃ G, G.Le F ∧ StandsAt W (k - widthIn body) G body (.foreverLoop body :: ks) := by
  cases h.resumes with
  | @foreverLoop k _ G F₁ _ _ hle hbody hle' hdue =>
    rw [Nat.add_sub_cancel]
    exact ⟨G, hle, F₁, hbody, .foreverLoop hle' hbody hle' hdue⟩

end StandsAt

theorem slots_onRoots (s : Session) (f : Roots → Option RootError × Roots) :
    (s.onRoots f).memory.slots = s.memory.slots := by
  rw [s.memory_onRoots]

theorem StandsAt.control (h : StandsAt W k F m.active.code m.active.konts) (hleaf : m.atLeaf = false)
    (hstays : m.leaves = false) :
    ∃ s a G, step p m = .running ⟨s, a, m.waiting⟩ ∧ s.memory.slots = m.session.memory.slots ∧
      a.regs = m.active.regs ∧ a.base = m.active.base ∧ a.dst = m.active.dst ∧ G.Le F ∧
      StandsAt W (m.active.pcAfter k) G a.code a.konts := by
  obtain ⟨s, ⟨code, konts, regs, base, dst⟩, ws⟩ := m
  cases code with
  | cons i is =>
    cases i with
    | rooted body =>
      exact ⟨s.rootBegin, ⟨body, .closeRoots is :: konts, regs, base, dst⟩, F, rfl, slots_onRoots s _, rfl, rfl,
        rfl, .refl F, h.rooted⟩
    | ifThen c body =>
      obtain ⟨-, hbody, hrest⟩ := h.branch
      simp only [step, execute, pcAfter, Activation.get]
      by_cases hc : (regs.getD c .zero).toBool = true
      · simp only [hc, if_true]
        exact ⟨s, _, F, rfl, rfl, rfl, rfl, rfl, .refl F, hbody⟩
      · simp only [hc]
        exact ⟨s, _, F, rfl, rfl, rfl, rfl, rfl, .refl F, hrest⟩
    | countLoop c body =>
      obtain ⟨-, hbody, hrest⟩ := h.count
      simp only [step, execute, countRound, pcAfter, Activation.get]
      by_cases hc : (regs.getD c .zero).toInteger - 1 < 0
      · simp only [hc, if_true]
        exact ⟨s, _, F, rfl, rfl, rfl, rfl, rfl, .refl F, hrest⟩
      · simp only [hc, if_false]
        exact ⟨s, _, F, rfl, rfl, rfl, rfl, rfl, .refl F, hbody _⟩
    | whileLoop test c body =>
      exact ⟨s, ⟨test, .whileTest test c body is :: konts, regs, base, dst⟩, F, rfl, rfl, rfl, rfl, rfl, .refl F,
        h.tests⟩
    | foreverLoop body =>
      exact ⟨s, ⟨body, .foreverLoop body :: konts, regs, base, dst⟩, F, rfl, rfl, rfl, rfl, rfl, .refl F, h.forever⟩
    | _ => cases hleaf
  | nil =>
    cases konts with
    | nil => cases hstays
    | cons kont konts =>
      cases kont with
      | next rest =>
        obtain ⟨G, hle, hrest⟩ := h.next
        exact ⟨s, ⟨rest, konts, regs, base, dst⟩, G, rfl, rfl, rfl, rfl, rfl, hle, hrest⟩
      | closeRoots rest =>
        exact ⟨s.rootEnd, ⟨rest, konts, regs, base, dst⟩, F, rfl, slots_onRoots s _, rfl, rfl, rfl, .refl F,
          h.closeRoots⟩
      | countLoop left body rest =>
        obtain ⟨G, hle, hbody, hrest⟩ := h.recount
        simp only [step, resume, countRound, pcAfter]
        split
        · exact ⟨s, _, G, rfl, rfl, rfl, rfl, rfl, hle, hrest⟩
        · exact ⟨s, _, G, rfl, rfl, rfl, rfl, rfl, hle, hbody _⟩
      | whileTest test c body rest =>
        obtain ⟨-, hbody, hrest⟩ := h.tested
        simp only [step, resume, pcAfter, Activation.get]
        by_cases hc : (regs.getD c .zero).toBool = true
        · simp only [hc, if_true]
          exact ⟨s, _, F, rfl, rfl, rfl, rfl, rfl, .refl F, hbody⟩
        · simp only [hc]
          exact ⟨s, _, F, rfl, rfl, rfl, rfl, rfl, .refl F, hrest⟩
      | whileBody test c body rest =>
        obtain ⟨G, hle, htest⟩ := h.retest
        exact ⟨s, ⟨test, .whileTest test c body rest :: konts, regs, base, dst⟩, G, rfl, rfl, rfl, rfl, rfl, hle,
          htest⟩
      | foreverLoop body =>
        obtain ⟨G, hle, hbody⟩ := h.again
        exact ⟨s, ⟨body, .foreverLoop body :: konts, regs, base, dst⟩, G, rfl, rfl, rfl, rfl, rfl, hle, hbody⟩

end Blockwork.Tracing
