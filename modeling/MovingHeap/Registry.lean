import MovingHeap.Word
import MovingHeap.Text.Utf8

/-! Words under names, kept in the order of the names' bytes. -/
namespace MovingHeap

structure Registry where
  entries : List (Bytes × Word) := []
  deriving DecidableEq

namespace Registry

def findEntry (name : Bytes) : List (Bytes × Word) → Option Word
  | [] => none
  | (other, w) :: rest => if name = other then some w else findEntry name rest

def find? (r : Registry) (name : Bytes) : Option Word := findEntry name r.entries

/-- Puts `w` under `name`, in place of what was there or before the first later name. -/
def insertEntry (name : Bytes) (w : Word) : List (Bytes × Word) → List (Bytes × Word)
  | [] => [(name, w)]
  | (other, v) :: rest =>
    if name = other then (name, w) :: rest
    else if name < other then (name, w) :: (other, v) :: rest
    else (other, v) :: insertEntry name w rest

def insert (r : Registry) (name : Bytes) (w : Word) : Registry := ⟨insertEntry name w r.entries⟩

def eraseEntry (name : Bytes) : List (Bytes × Word) → List (Bytes × Word)
  | [] => []
  | (other, v) :: rest =>
    if name = other then eraseEntry name rest else (other, v) :: eraseEntry name rest

def erase (r : Registry) (name : Bytes) : Registry := ⟨eraseEntry name r.entries⟩

/-- Replaces every word, in the order of the names. -/
def mapM {m : Type → Type} [Monad m] (f : Word → m Word) (r : Registry) : m Registry := do
  return ⟨← r.entries.mapM fun (name, w) => do return (name, ← f w)⟩

theorem findEntry_insertEntry_self (name : Bytes) (w : Word) (es : List (Bytes × Word)) :
    findEntry name (insertEntry name w es) = some w := by
  induction es with
  | nil => simp [insertEntry, findEntry]
  | cons e rest ih =>
    rw [insertEntry]
    split
    · simp [findEntry]
    · split <;> simp_all [findEntry]

theorem findEntry_insertEntry_of_ne {name other : Bytes} (h : other ≠ name) (w : Word)
    (es : List (Bytes × Word)) : findEntry other (insertEntry name w es) = findEntry other es := by
  induction es with
  | nil => simp [insertEntry, findEntry, h]
  | cons e rest ih =>
    rw [insertEntry]
    split
    · simp_all [findEntry]
    · split <;> simp_all [findEntry]

theorem findEntry_eraseEntry_self (name : Bytes) (es : List (Bytes × Word)) :
    findEntry name (eraseEntry name es) = none := by
  induction es with
  | nil => rfl
  | cons e rest ih =>
    rw [eraseEntry]
    split <;> simp_all [findEntry]

theorem findEntry_eraseEntry_of_ne {name other : Bytes} (h : other ≠ name)
    (es : List (Bytes × Word)) : findEntry other (eraseEntry name es) = findEntry other es := by
  induction es with
  | nil => rfl
  | cons e rest ih =>
    rw [eraseEntry]
    split <;> simp_all [findEntry]

@[simp]
theorem find?_insert_self (r : Registry) (name : Bytes) (w : Word) :
    (r.insert name w).find? name = some w := findEntry_insertEntry_self name w r.entries

theorem find?_insert_of_ne (r : Registry) {name other : Bytes} (h : other ≠ name) (w : Word) :
    (r.insert name w).find? other = r.find? other := findEntry_insertEntry_of_ne h w r.entries

@[simp]
theorem find?_erase_self (r : Registry) (name : Bytes) : (r.erase name).find? name = none :=
  findEntry_eraseEntry_self name r.entries

theorem find?_erase_of_ne (r : Registry) {name other : Bytes} (h : other ≠ name) :
    (r.erase name).find? other = r.find? other := findEntry_eraseEntry_of_ne h r.entries

end Registry
end MovingHeap
