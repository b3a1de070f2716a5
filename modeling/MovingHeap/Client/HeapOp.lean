import MovingHeap.Client.Answer
import MovingHeap.Client.Session
import MovingHeap.Heap.Graph

/-! Steps on blocks and words. -/
namespace MovingHeap.Client
open SessionM

/-- The word that an allocation gives. -/
def allocated (dest : Option String) (allocation : Mutator Word) : SessionM Result := do
  return .word (← save dest (← mutate allocation))

/-- Collects so many times, one after the other. -/
def collectTimes : Nat → SessionM Unit
  | 0 => return ()
  | times + 1 => do
    mutate Mutator.collect
    collectTimes times

def HeapOp.run (dest : Option String) : HeapOp → SessionM Result
  | .bind v => return .word (← save dest (← eval v))
  | .bits v => return .bits (← eval v)
  | .equal a b => do
    let a ← eval a
    let b ← eval b
    return .flag (a == b)
  | .allocFields count t => allocated dest (Mutator.allocFields t count)
  | .allocString content => allocated dest (Mutator.allocString content)
  | .allocTuple vs => do allocated dest (Mutator.allocTuple (← evalAll vs))
  | .allocSome v => do allocated dest (Mutator.allocSome (← eval v))
  | .allocStringArray items => allocated dest (Mutator.allocStringArray items)
  | .allocIdentity name => allocated dest (Mutator.allocIdentity name)
  | .field v i => do
    let w ← eval v
    return .word (← save dest (← read (·.field w i)))
  | .setField v x i => do
    let w ← eval v
    let x ← eval x
    mutate (Mutator.update (·.setField w i x))
    return .nothing
  | .block v => do
    let w ← eval v
    return ((← read (·.block w)).map Result.block).getD .nothing
  | .lookup v => do
    let w ← eval v
    let h ← heap
    return ((w.ref?.bind h.lookup).map Result.block).getD .nothing
  | .tag v => do
    let w ← eval v
    return ((← read (·.tag w)).map fun t => Result.count t.code).getD .nothing
  | .size v => do
    let w ← eval v
    return .count (← read (·.size w))
  | .bytes v => do
    let w ← eval v
    return ((← read (·.bytes w)).map Result.bytes).getD .nothing
  | .outline v => do
    let w ← eval v
    return .text ((← heap).outline w).text
  | .isCurrent v => do
    let w ← eval v
    return .flag ((← heap).isCurrent w)
  | .graph vs => do
    let ws ← evalAll vs
    return .graph ws ((← heap).walk ws)
  | .collect times => do
    collectTimes times
    return .nothing
  | .config => return .config (← heap).config

end MovingHeap.Client
