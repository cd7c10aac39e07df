import FiberStacks.Fault
import FiberStacks.Text.Quoted

/-!
# Configuration

Sizes, in words, and the layout of frames. Every setting has a default; `Config.validate` checks the settings
against each other.
-/

namespace FiberStacks

inductive LayoutKind where
  /-- Interpreted frames: every used word may be a reference. -/
  | bytecode
  /-- Compiled frames, described by a table. -/
  | native
deriving DecidableEq, Repr

namespace LayoutKind

def name : LayoutKind → String
  | bytecode => "bytecode"
  | native => "native"

def label : LayoutKind → String
  | bytecode => "Bytecode"
  | native => "Native"

def ofName? (s : String) : Option LayoutKind :=
  if s = "bytecode" then some bytecode else if s = "native" then some native else none

theorem ofName?_name (k : LayoutKind) : ofName? k.name = some k := by
  cases k <;> decide

end LayoutKind

structure Config where
  /-- Capacity of a main stack. -/
  initStackWords : Nat := 4096
  /-- Capacity of a new fiber, without its saved context. -/
  fiberStackWords : Nat := 64
  /-- Limit for the growth of a stack. -/
  maxStackWords : Nat := 1048576
  /-- Headroom kept free for native code. -/
  stackThresholdWords : Nat := 32
  /-- Young words after which a minor collection is due. -/
  minorHeapWords : Nat := 262144
  /-- Words the heap may hold. -/
  maxHeapWords : Nat := 67108864
  layout : LayoutKind := .bytecode
deriving DecidableEq, Repr

inductive InvalidConfig where
  | noMainStack
  /-- The limit of growth is below the size of the main stack. -/
  | limitTooSmall (limit init : Nat)
  /-- The heap is smaller than the main stack. -/
  | heapTooSmall (heap init : Nat)
deriving DecidableEq, Repr

def InvalidConfig.message : InvalidConfig → String
  | noMainStack => "invalid config: init_stack_words must be positive"
  | limitTooSmall m i =>
    "invalid config: max_stack_words (" ++ Text.decimal m ++ ") is smaller than init_stack_words ("
      ++ Text.decimal i ++ ")"
  | heapTooSmall h i =>
    "invalid config: max_heap_words (" ++ Text.decimal h ++ ") cannot hold the main stack ("
      ++ Text.decimal i ++ " words)"

namespace Config

/-- The sizes with their names, in the order of a document. -/
def sizes (c : Config) : List (String × Nat) :=
  [("init_stack_words", c.initStackWords), ("fiber_stack_words", c.fiberStackWords),
    ("max_stack_words", c.maxStackWords), ("stack_threshold_words", c.stackThresholdWords),
    ("minor_heap_words", c.minorHeapWords), ("max_heap_words", c.maxHeapWords)]

/-- Change the size of a name; other names change nothing. -/
def setSize (c : Config) (name : String) (n : Nat) : Config :=
  if name = "init_stack_words" then { c with initStackWords := n }
  else if name = "fiber_stack_words" then { c with fiberStackWords := n }
  else if name = "max_stack_words" then { c with maxStackWords := n }
  else if name = "stack_threshold_words" then { c with stackThresholdWords := n }
  else if name = "minor_heap_words" then { c with minorHeapWords := n }
  else if name = "max_heap_words" then { c with maxHeapWords := n }
  else c

/-- Check the settings against each other; the first contradiction counts. -/
def validate (c : Config) : Except InvalidConfig Unit :=
  if c.initStackWords = 0 then .error .noMainStack
  else if c.maxStackWords < c.initStackWords then .error (.limitTooSmall c.maxStackWords c.initStackWords)
  else if c.maxHeapWords < c.initStackWords then .error (.heapTooSmall c.maxHeapWords c.initStackWords)
  else .ok ()

theorem validate_eq_ok_iff {c : Config} :
    c.validate = .ok () ↔
      0 < c.initStackWords ∧ c.initStackWords ≤ c.maxStackWords ∧ c.initStackWords ≤ c.maxHeapWords := by
  unfold validate
  repeat' split
  all_goals simp_all
  all_goals omega

end Config

end FiberStacks
