import Blockwork.Proofs.Tracing.Marks
import Blockwork.Proofs.Typing.Content

/-! # What a run has done to variables
The steps of a run that touch variables, last first. -/

namespace Blockwork

namespace Event

def writes (x : Stored) (e : Event) : Bool :=
  match e.access with
  | .declares y _ => y == x
  | .assigns y _ => y == x
  | _ => false

def declares (x : Stored) (e : Event) : Bool :=
  match e.access with
  | .declares y _ => y == x
  | _ => false

def closes (x : Stored) (e : Event) : Bool :=
  match e.access with
  | .closes xs => xs.contains x
  | _ => false

def countsFor (x : Stored) (birth : Nat) (e : Event) : Bool :=
  x.isGlobal || e.invocation.birth == birth

/-- The last step that gave a variable a value, for an invocation that started at a step. -/
def lastWrite? (L : List Event) (x : Stored) (birth : Nat) : Option Event :=
  L.find? fun e => e.writes x && e.countsFor x birth

/-- Whether a variable was declared since its scope was last entered, in an invocation that started at a
step. -/
def isOpen (L : List Event) (x : Stored) (birth : Nat) : Bool :=
  (L.find? fun e => (e.declares x || e.closes x) && e.countsFor x birth).any (declares x)

end Event

/-- What the steps before step `n` of a run of a compiled program have done to variables, last first. -/
def Program.history (p : Program) (code : ProgramCode) (h : Host) (s : Session) : Nat → List Event
  | 0 => []
  | n + 1 => (p.event? code h s n).toList ++ p.history code h s n

namespace Tracing

open Event

variable {L : List Event} {x y : Stored} {v : Value} {e : Event}

theorem declares_of_writes (h : e.writes x = false) : e.declares x = false := by
  unfold writes at h
  unfold declares
  cases haccess : e.access with
  | declares y r =>
    rw [haccess] at h
    exact h
  | _ => rfl

theorem writes_other (he : e.access = .declares x r ∨ e.access = .assigns x r) (hxy : x ≠ y) :
    e.writes y = false ∧ e.closes y = false := by
  rcases he with he | he
  · simp [writes, closes, he, hxy]
  · simp [writes, closes, he, hxy]

theorem lastWrite?_cons (e : Event) (L : List Event) (x : Stored) (b : Nat) :
    lastWrite? (e :: L) x b = bif e.writes x && e.countsFor x b then some e else lastWrite? L x b := by
  unfold lastWrite?
  rw [List.find?_cons]
  cases e.writes x && e.countsFor x b <;> rfl

theorem isOpen_cons (e : Event) (L : List Event) (x : Stored) (b : Nat) : isOpen (e :: L) x b =
      bif (e.declares x || e.closes x) && e.countsFor x b then e.declares x else isOpen L x b := by
  unfold isOpen
  rw [List.find?_cons]
  cases (e.declares x || e.closes x) && e.countsFor x b <;> rfl

theorem lastWrite?_shared (hx : x.isGlobal = true) (L : List Event) (b b' : Nat) :
    lastWrite? L x b = lastWrite? L x b' := by
  simp only [lastWrite?, countsFor, hx, Bool.true_or]

/-- A variable of an invocation holds the last value it was given, which has its type. -/
structure Remembers (L : List Event) (birth : Nat) (x : Stored) (v : Value) : Prop where
  typed : v.content = .value x.ty
  last : (lastWrite? L x birth).map Event.value = some v
  isOpen : Event.isOpen L x birth = true

namespace Remembers

theorem skip (h : Remembers L b x v) (hx : x.isGlobal = false)
    (he : e.invocation.birth ≠ b ∨ e.writes x = false ∧ e.closes x = false) : Remembers (e :: L) b x v := by
  have hwrites : (e.writes x && e.countsFor x b) = false := by
    rcases he with he | he
    · simp [countsFor, hx, he]
    · rw [he.1, Bool.false_and]
  have hopen : ((e.declares x || e.closes x) && e.countsFor x b) = false := by
    rcases he with he | ⟨hw, hc⟩
    · simp [countsFor, hx, he]
    · rw [declares_of_writes hw, hc]
      rfl
  refine ⟨h.typed, ?_, ?_⟩
  · rw [lastWrite?_cons, hwrites]
    exact h.last
  · rw [isOpen_cons, hopen]
    exact h.isOpen

theorem later (h : Remembers L b x v) (hx : x.isGlobal = false)
    (hnew : ∀ e ∈ new, e.invocation.birth ≠ b) : Remembers (new ++ L) b x v := by
  induction new with
  | nil => exact h
  | cons e new ih =>
    exact (ih fun e he => hnew e (List.mem_cons_of_mem _ he)).skip hx (.inl (hnew e List.mem_cons_self))

theorem declared (hb : e.invocation.birth = b) (he : e.access = .declares x r)
    (htyped : e.value.content = .value x.ty) : Remembers (e :: L) b x e.value := by
  have hcounts : e.countsFor x b = true := by simp [countsFor, hb]
  refine ⟨htyped, ?_, ?_⟩
  · rw [lastWrite?_cons, hcounts]
    simp [writes, he]
  · rw [isOpen_cons, hcounts]
    simp [declares, he]

theorem assigned (h : Remembers L b x v) (hb : e.invocation.birth = b) (he : e.access = .assigns x r)
    (htyped : e.value.content = .value x.ty) : Remembers (e :: L) b x e.value := by
  have hcounts : e.countsFor x b = true := by simp [countsFor, hb]
  refine ⟨htyped, ?_, ?_⟩
  · rw [lastWrite?_cons, hcounts]
    simp [writes, he]
  · rw [isOpen_cons]
    simp only [declares, closes, he, Bool.or_self, Bool.false_and, cond_false]
    exact h.isOpen

end Remembers

/-- A variable of the program holds the last value it was given, which has its type, or it is untouched. -/
def CellHolds (L : List Event) (x : Stored) (v : Value) : Prop :=
  match lastWrite? L x 0 with
  | some e => v = e.value ∧ v.content = .value x.ty
  | none => v = .zero

theorem CellHolds.skip (h : CellHolds L x v) (he : e.writes x = false) : CellHolds (e :: L) x v := by
  unfold CellHolds
  rw [lastWrite?_cons, he]
  exact h

theorem CellHolds.written (hx : x.isGlobal = true) (he : e.writes x = true)
    (htyped : e.value.content = .value x.ty) : CellHolds (e :: L) x e.value := by
  unfold CellHolds
  rw [lastWrite?_cons, he]
  simp only [countsFor, hx, Bool.true_or, Bool.and_self, cond_true]
  exact ⟨trivial, htyped⟩

end Tracing

end Blockwork
