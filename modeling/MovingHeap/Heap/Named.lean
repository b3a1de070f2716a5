import MovingHeap.Heap.Basic

/-! Values under names, and the raise for a name that nothing is registered under. -/
namespace MovingHeap
namespace Heap

def named? (h : Heap) (name : Bytes) : Option Word := h.registry.find? name

def register (h : Heap) (name : Bytes) (w : Word) : Heap :=
  { h with registry := h.registry.insert name w }

def unregister (h : Heap) (name : Bytes) : Heap := { h with registry := h.registry.erase name }

/-- The report about a missing name, cut to the configured length. -/
def missingName (h : Heap) (name : Bytes) : Bytes :=
  Utf8.cut (name ++ Utf8.encode " not registered.") h.config.messageLimit

def named (h : Heap) (name : Bytes) : Except Raise Word :=
  match h.named? name with
  | some w => .ok w
  | none => .error (.failure (h.missingName name))

/-- The raise for want of memory: what is registered under the builtin's name, as a constant
exception. -/
def outOfMemory (h : Heap) : Raise :=
  match h.named (Utf8.encode Builtin.outOfMemory.name) with
  | .ok exn => .constant exn
  | .error r => r

theorem named_eq_ok_iff {h : Heap} {name : Bytes} {w : Word} :
    h.named name = .ok w ↔ h.named? name = some w := by
  unfold named
  split <;> simp_all

@[simp]
theorem named?_register_self (h : Heap) (name : Bytes) (w : Word) :
    (h.register name w).named? name = some w := h.registry.find?_insert_self name w

@[simp]
theorem named?_unregister_self (h : Heap) (name : Bytes) :
    (h.unregister name).named? name = none := h.registry.find?_erase_self name

end Heap
end MovingHeap
