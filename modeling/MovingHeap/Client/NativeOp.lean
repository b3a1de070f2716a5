import MovingHeap.Client.Answer
import MovingHeap.Client.Session

/-! Steps that copy managed data to native memory and look at the copies. -/
namespace MovingHeap.Client
open SessionM

/-- The conversion of an array element. Its state counts the elements it was given; the one whose
number `failure` has raises instead. -/
def Rendering.convert (f : Rendering) (h : Heap) (failure : Option (Nat × Raise))
    {s : Shape} (x : Handle s) : Native Nat Buffer := do
  let (memory, seen) ← get
  set (memory, seen + 1)
  if let some (number, r) := failure then
    if number = seen then throw (.raise r)
  match f with
  | .string => Native.ofString h ⟨x.word⟩
  | .decimal => Native.copy h (Utf8.encode (toString x.word.payload))
  | .outline => Native.copy h (Utf8.encode (h.outline x.word).text)

/-- Maps an array with a conversion that counts; the counts are kept however it ends. -/
def mapCounting {s : Shape} (x : Handle (.array s))
    (f : Heap → Handle s → Native Nat Buffer) (keep : Option String) : SessionM Result := do
  let p := (← get).process
  match Native.mapArray p.heap x (f p.heap) (p.memory, 0) with
  | .ok a (memory, seen) =>
    modify fun s => { s with process := { p with memory } }
    return .mapped seen (← a.mapM (keepArray keep))
  | .error e (memory, seen) =>
    modify fun s => { s with process := { p with memory } }
    return .mapStopped seen e

/-- A name under which no copy is kept is reported as it stands. -/
def NativeOp.run : NativeOp → SessionM Result
  | .string v keep => do
    let x ← evalTyped .string v
    return .buffer (← keepBuffer keep (← call (.native fun h => Native.ofString h x)))
  | .stringOption v keep => do
    let x ← evalTyped (.option .string) v
    match ← call (.native fun h => Native.ofStringOption h x) with
    | some b => return .buffer (← keepBuffer keep b)
    | none => return .nothing
  | .storeInt v out => do
    let x ← evalTyped (.option .int) v
    let (written, n) ← read fun h => x.storeInt h out
    return .stored written n
  | .int v => do
    let x ← evalTyped (.option .int) v
    return ((← read fun h => x.int? h).map Result.number).getD .nothing
  | .strings v keep => do
    let x ← evalTyped (.array .string) v
    match ← call (.native fun h => Native.ofStrings h x) with
    | some a => return .array (← keepArray keep a)
    | none => return .nothing
  | .map v element rendering failure keep => do
    let w ← eval v.operand
    let failure ← failure.mapM fun (number, form) => do return (number, ← evalRaise form)
    let x ← if v.trusted then pure ⟨w⟩ else narrow (.array element) w
    mapCounting x (fun h y => rendering.convert h failure y) keep
  | .allocate size => do
    let _ ← call (.native fun h => Native.allocate h size)
    return .text "allocated"
  | .copy bytes keep => do
    return .buffer (← keepBuffer keep (← call (.native fun h => Native.copy h bytes)))
  | .recall name => do
    let s ← get
    match s.buffers.get? name, s.arrays.get? name with
    | some b, _ => return .buffer b
    | none, some a => return .array a
    | none, none => undefined name
  | .text name => do
    let s ← get
    match s.buffers.get? name, s.arrays.get? name with
    | some b, _ => return .text b.text
    | none, some a => return .text a.text
    | none, none => undefined name
  | .item name i => do
    match (← get).arrays.get? name with
    | some a => return ((a.item? i).map Result.bytes).getD .nothing
    | none => undefined name
  | .free name => do
    let s ← get
    match s.arrays.get? name, s.buffers.get? name with
    | some _, _ =>
      set { s with arrays := s.arrays.erase name }
      return .text "array"
    | none, some _ =>
      set { s with buffers := s.buffers.erase name }
      return .text "string"
    | none, none => return .nothing
  | .retake name => do
    match (← get).buffers.get? name with
    | some b => return .buffer (← keepBuffer (some name) b.retaken)
    | none => return .nothing

end MovingHeap.Client
