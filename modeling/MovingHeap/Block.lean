import MovingHeap.Word
import MovingHeap.Text.Utf8

/-! Blocks of the managed heap. -/
namespace MovingHeap

inductive Tag
  | tuple
  | object
  | string
  deriving DecidableEq

def Tag.code : Tag → Nat
  | tuple => 0
  | object => 248
  | string => 252

/-- Tuples serve as records, arrays, present options and exceptions with arguments; objects are
exception identities. -/
inductive Block
  | tuple (fields : List Word)
  | object (fields : List Word)
  | string (bytes : Bytes)
  deriving DecidableEq

namespace Block

def tag : Block → Tag
  | tuple _ => .tuple
  | object _ => .object
  | string _ => .string

/-- A string has no fields. -/
def fields : Block → List Word
  | tuple fs | object fs => fs
  | string _ => []

def bytes? : Block → Option Bytes
  | string bs => some bs
  | _ => none

def withFields (b : Block) (fs : List Word) : Block :=
  match b with
  | tuple _ => .tuple fs
  | object _ => .object fs
  | string bs => .string bs

/-- Words without the header. A string fills whole words and keeps room for a terminator. -/
def size : Block → Nat
  | tuple fs | object fs => fs.length
  | string bs => bs.length / 8 + 1

/-- Words with the header. -/
def words (b : Block) : Nat := b.size + 1

@[simp]
theorem tag_withFields (b : Block) (fs : List Word) : (b.withFields fs).tag = b.tag := by
  cases b <;> rfl

@[simp]
theorem bytes?_withFields (b : Block) (fs : List Word) : (b.withFields fs).bytes? = b.bytes? := by
  cases b <;> rfl

@[simp]
theorem withFields_fields (b : Block) : b.withFields b.fields = b := by
  cases b <;> rfl

theorem fields_withFields {b : Block} {fs : List Word} (h : fs.length = b.fields.length) :
    (b.withFields fs).fields = fs := by
  cases b <;> simp_all [withFields, fields]

theorem size_withFields {b : Block} {fs : List Word} (h : fs.length = b.fields.length) :
    (b.withFields fs).size = b.size := by
  cases b <;> simp_all [withFields, fields, size]

end Block

/-- Words of a space, headers included. -/
def wordsOf (blocks : Array Block) : Nat := blocks.foldl (fun n b => n + b.words) 0

end MovingHeap
