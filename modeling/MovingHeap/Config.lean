/-! The settings of a heap. -/
namespace MovingHeap

/-- When to collect, and how much may live. -/
structure Tuning where
  /-- Words that may be allocated between two collections. -/
  minorWords : Nat := 256 * 1024
  /-- Bound on the live words, if there is one. -/
  maxWords : Option Nat := none
  /-- Collect before every allocation. -/
  stress : Bool := false
  deriving DecidableEq

/-- Size of the buffer in which a missing name is reported, terminator included. -/
def messageBuffer : Nat := 256

structure Config where
  tuning : Tuning := {}
  /-- Register the out-of-memory exception under its name when the heap is made. -/
  registerOutOfMemory : Bool := true
  /-- Longest message, in bytes, about a missing name. -/
  messageLimit : Nat := messageBuffer - 1
  deriving DecidableEq

/-- One change to a configuration. -/
inductive Setting
  | stress (on : Bool)
  | maxWords (words : Nat)
  | registerOutOfMemory (on : Bool)
  | messageLimit (bytes : Nat)
  | tuning (t : Tuning)

def Setting.apply (c : Config) : Setting → Config
  | stress on => { c with tuning := { c.tuning with stress := on } }
  | maxWords words => { c with tuning := { c.tuning with maxWords := some words } }
  | registerOutOfMemory on => { c with registerOutOfMemory := on }
  | messageLimit bytes => { c with messageLimit := bytes }
  | tuning t => { c with tuning := t }

/-- The settings are applied in order to the default. -/
def Config.ofSettings (settings : List Setting) : Config := settings.foldl Setting.apply {}

end MovingHeap
