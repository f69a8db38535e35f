import Mathlib.Data.List.Basic

/-! Cells that check borrows when the program runs. A borrow that conflicts with a living guard
panics, which is `none` here; dropping the guard makes the cell free again. -/
namespace RefCells

variable {α β : Type*}

inductive Flag where
  | unused
  | reading (guards : ℕ)
  | writing
  deriving DecidableEq, Repr

structure RefCell (α : Type*) where
  value : α
  flag : Flag

def RefCell.new (a : α) : RefCell α := ⟨a, .unused⟩

def RefCell.borrow (c : RefCell α) : Option (RefCell α) :=
  match c.flag with
  | .unused => some { c with flag := .reading 1 }
  | .reading n => some { c with flag := .reading (n + 1) }
  | .writing => none

def RefCell.borrowMut (c : RefCell α) : Option (RefCell α) :=
  match c.flag with
  | .unused => some { c with flag := .writing }
  | _ => none

def RefCell.dropRef (c : RefCell α) : RefCell α :=
  match c.flag with
  | .reading (n + 2) => { c with flag := .reading (n + 1) }
  | _ => { c with flag := .unused }

def RefCell.dropRefMut (c : RefCell α) : RefCell α := { c with flag := .unused }

/-- A statement that looks at the value. Its guard dies at its end. -/
def RefCell.inspect (c : RefCell α) (f : α → β) : Option (β × RefCell α) :=
  c.borrow.map fun guarded => (f guarded.value, guarded.dropRef)

/-- A statement that changes the value. Its guard dies at its end. -/
def RefCell.modify (c : RefCell α) (f : α → β × α) : Option (β × RefCell α) :=
  c.borrowMut.map fun guarded =>
    ((f guarded.value).1, { guarded with value := (f guarded.value).2 }.dropRefMut)

variable {c : RefCell α}

@[simp] theorem flag_dropRefMut : c.dropRefMut.flag = .unused := rfl
@[simp] theorem value_dropRefMut : c.dropRefMut.value = c.value := rfl

theorem borrowMut_unused (h : c.flag = .unused) :
    c.borrowMut = some { c with flag := .writing } := by
  simp [RefCell.borrowMut, h]

theorem borrowMut_writing (h : c.flag = .writing) : c.borrowMut = none := by
  simp [RefCell.borrowMut, h]

theorem modify_unused (h : c.flag = .unused) (f : α → β × α) :
    c.modify f = some ((f c.value).1, ⟨(f c.value).2, .unused⟩) := by
  simp [RefCell.modify, borrowMut_unused h, RefCell.dropRefMut]

/-- Looking at a free cell leaves it as it was. -/
theorem inspect_unused (h : c.flag = .unused) (f : α → β) :
    c.inspect f = some (f c.value, c) := by
  obtain ⟨value, flag⟩ := c
  subst h
  rfl

theorem inspect_writing (h : c.flag = .writing) (f : α → β) : c.inspect f = none := by
  simp [RefCell.inspect, RefCell.borrow, h]

end RefCells
