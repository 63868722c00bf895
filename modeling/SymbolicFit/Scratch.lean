/-!
Scratch memory, kept between rows so that it is not allocated again.
-/

namespace SymbolicFit

/-- A row of items. Every use starts by dropping what an earlier one left. -/
structure Scratch (β : Type) where
  data : Array β

namespace Scratch

variable {β : Type}

def empty : Scratch β := ⟨#[]⟩

/-- Empty, with room for `capacity` items. -/
def withCapacity (capacity : Nat) : Scratch β := ⟨Array.emptyWithCapacity capacity⟩

def clear (_ : Scratch β) : Scratch β := empty

/-- Replaces the contents by `length` copies of an item. -/
def fill (_ : Scratch β) (length : Nat) (item : β) : Scratch β := ⟨Array.replicate length item⟩

def push (s : Scratch β) (item : β) : Scratch β := ⟨s.data.push item⟩

def size (s : Scratch β) : Nat := s.data.size

def toList (s : Scratch β) : List β := s.data.toList

def getD (s : Scratch β) (i : Nat) (fallback : β) : β := s.data.getD i fallback

/-- Changes the item at a place, if there is one. -/
def modify (s : Scratch β) (i : Nat) (f : β → β) : Scratch β := ⟨s.data.modify i f⟩

@[simp] theorem size_empty : (empty : Scratch β).size = 0 := rfl

@[simp] theorem clear_eq (s : Scratch β) : s.clear = empty := rfl

@[simp] theorem size_push (s : Scratch β) (x : β) : (s.push x).size = s.size + 1 := by
  simp [size, push]

@[simp] theorem size_fill (s : Scratch β) (n : Nat) (x : β) : (s.fill n x).size = n := by
  simp [size, fill]

@[simp] theorem size_modify (s : Scratch β) (i : Nat) (f : β → β) :
    (s.modify i f).size = s.size := by
  simp [size, modify]

theorem getD_push (s : Scratch β) (x d : β) (i : Nat) :
    (s.push x).getD i d = if i = s.size then x else s.getD i d := by
  simp only [getD, push, size, Array.getD_eq_getD_getElem?, Array.getElem?_push]
  split <;> rfl

@[simp] theorem getD_fill (s : Scratch β) (n : Nat) (x : β) (i : Nat) :
    (s.fill n x).getD i x = x := by
  simp only [getD, fill, Array.getD_eq_getD_getElem?, Array.getElem?_replicate]
  split <;> rfl

theorem getD_modify (s : Scratch β) (f : β → β) (d : β) {i j : Nat} (h : j < s.size) :
    (s.modify i f).getD j d = if i = j then f (s.getD j d) else s.getD j d := by
  simp only [size] at h
  by_cases hij : i = j <;> simp [getD, modify, Array.getElem_modify, hij, h]

end Scratch

end SymbolicFit
