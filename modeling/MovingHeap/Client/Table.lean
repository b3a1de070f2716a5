/-! Small tables from names to values. -/
namespace MovingHeap.Client

structure Table (α : Type) where
  entries : List (String × α) := []

namespace Table

variable {α : Type}

def get? (t : Table α) (name : String) : Option α := t.entries.lookup name

def erase (t : Table α) (name : String) : Table α := ⟨t.entries.filter fun e => e.1 != name⟩

def insert (t : Table α) (name : String) (a : α) : Table α := ⟨(name, a) :: (t.erase name).entries⟩

@[simp]
theorem get?_insert_self (t : Table α) (name : String) (a : α) :
    (t.insert name a).get? name = some a := by
  simp [insert, get?]

end Table
end MovingHeap.Client
