import FiberStacks.Act.Raise

/-!
# Stacks

Creating the stacks a domain runs on, switching between them and growing them.

The registers hold the live stack pointer of the current stack. `Act.saveStack` writes it back to the segment and
marks an old segment dirty, since writes to a stack pass no barrier; `Act.syncStack` only writes it back;
`Act.loadStack` makes a stack the current one.

* `Act.newStack`, `Act.newMainStack` — a new fiber, a new main stack;
* `Act.tryGrow`, `Act.grow`, `Act.ensure`, `Act.maybeExpand` — replace the current stack by a larger one;
* `Act.switchStack` — run on another stack;
* `Act.push`, `Act.pop`, `Act.peek` — the words of the current stack.
-/

namespace FiberStacks

/-- The word at the bottom of a bytecode fiber. -/
def trapSentinel : Word := .ofInt 1

/-- A new fiber with room for `words` words besides its context. A bytecode fiber starts with the trap sentinel. A
native one starts with an empty chunk: a context header, and the two return addresses that end a fiber. -/
def Segment.fiber (layout : Layout) (words : Nat) (h : Handlers) : Except Fault Segment := do
  let s ← make (← Size.add contextWords words) h
  match layout with
  | .bytecode => (← s.setWord (-1) trapSentinel).setPointer (-1)
  | .native _ =>
    let s ← s.setWord (-1) ⟨exceptionReturn⟩
    let s ← s.setWord (-2) .null
    let s ← s.setWord (-3) ⟨valueReturn⟩
    let s ← s.setWord (-4) (.ofInt (-2))
    let s ← s.setWord (-5) .null
    s.setPointer (-5)

inductive Growth where
  | reaches (size : Nat)
  | overLimit
  | tooLarge
deriving DecidableEq, Repr

namespace Growth

/-- Double a size until it has room for `needed` words; sizes from the limit on are not doubled, and none is that does
not fit in 64 bits. -/
def after (limit needed : Nat) : (doublings size : Nat) → Growth
  | 0, _ => tooLarge
  | n + 1, size =>
    if limit ≤ size then overLimit
    else
      match Size.double size with
      | .error _ => tooLarge
      | .ok twice =>
        let next := max twice 1
        if needed ≤ next then reaches next else after limit needed n next

/-- One more than the doublings there are in 64 bits, from no word on. -/
def doublings : Nat := 65

/-- The size of the stack that replaces one of size `size`. -/
def of (limit needed size : Nat) : Growth := after limit needed doublings size

end Growth

namespace Act

/-! ### Saving and loading -/

/-- Write the live stack pointer back to the current segment. -/
def syncStack : Act Unit := do
  match (← domain).registers with
  | none => return
  | some r => setStack r.current (← check ((← stack r.current).setPointer r.pointer))

/-- Mark a stack dirty for the acting domain and queue it. -/
def markDirty (b : BlockId) : Act Unit := do
  let d ← domain
  let (_, h, remembered) ← check ((← heap).markDirty d.id d.remembered b)
  setHeap h
  modifyDomain fun d => { d with remembered }

/-- Write the live stack pointer back and mark an old segment dirty. Returns the current stack. -/
def saveStack : Act BlockId := do
  let r ← registers
  syncStack
  markDirty r.current
  return r.current

def loadStack (b : BlockId) : Act Unit := do
  let s ← stack b
  modifyDomain fun d => { d with registers := some ⟨b, s.used, s.capacity⟩ }

/-- Load the current stack again, after its segment was changed. -/
def restoreStack : Act Unit := do loadStack (← registers).current

/-- Save the current stack for a collection: until `restoreForCollection` the segment counts. -/
def saveForCollection : Act Unit := do
  require ((← domain).stackSaved = false) .alreadySaved
  let _ ← saveStack
  modifyDomain fun d => { d with stackSaved := true }

/-- Load the current stack after a collection, if it was saved for one. -/
def restoreForCollection : Act Unit := do
  if (← domain).stackSaved then restoreStack
  modifyDomain fun d => { d with stackSaved := false }

/-- Save the current stack and run on another one. Returns the one left. -/
def switchStack (target : BlockId) : Act BlockId := do
  guardBlocking .switch
  let previous ← saveStack
  loadStack target
  return previous

/-! ### New stacks -/

def newMainStack (words : Nat) : Act (Except Failure BlockId) := do
  let s ← check (Segment.make words .zero)
  match ← allocate (.stack s) .quiet with
  | .error e => return .error e.toFailure
  | .ok b =>
    note (.mainStackAllocated b words)
    return .ok b

/-- Allocate the main stack of the acting domain and run on it. -/
def initMainStack : Act (Except Failure BlockId) := do
  match ← newMainStack (← config).initStackWords with
  | .error e => return .error e
  | .ok b =>
    loadStack b
    return .ok b

/-- Give the acting domain a main stack; it can raise predefined exceptions from then on. -/
def start : Act (Except Failure BlockId) := do
  match ← initMainStack with
  | .error e => return .error e
  | .ok b =>
    modifyDomain fun d => { d with ready := true }
    let d ← domain
    modifyWorld fun w => w.setReady d.id
    note (.domainReady d.id b)
    return .ok b

/-- Allocate a fiber with room for so many words, without parent and clean. -/
def newStackOf (words : Nat) (h : Handlers) : Act BlockId := do
  let s ← check (Segment.fiber (← layout) words h)
  match ← allocate (.stack s) .normal with
  | .ok b =>
    note (.stackAllocated b s.capacity)
    return b
  | .error _ => raiseExn .outOfMemory

/-- Allocate a fiber of the configured size. -/
def newStack (h : Handlers) : Act BlockId := do newStackOf (← config).fiberStackWords h

/-! ### Growth -/

/-- **Replace the current stack by one at least twice as large** that has room for `required` more words. The words
in `saved` are local roots while the new segment is allocated, and come back. On failure the old stack is still
the current one. -/
def tryGrow (required : Nat) (saved : List Word) : Act (Except Failure BlockId × List Word) := do
  guardBlocking .grow
  let old ← saveStack
  let s ← stack old
  let d ← domain
  let needed ← check (Size.add s.used required)
  match Growth.of d.limit needed s.capacity with
  | .overLimit => return (.error (.stackOverflow needed d.limit), saved)
  | .tooLarge => fault .productTooLarge
  | .reaches size =>
    noteSize .growing size
    let fresh ← check (Segment.make size .zero)
    let fresh ← check (fresh.copyUsed s)
    let fresh ← check (fresh.copyMetadata s)
    let marker ← enterFrame saved
    let allocated ← allocate (.stack fresh) .normal
    let saved ← leaveFrame marker
    match allocated with
    | .error e => return (.error e.toFailure, saved)
    | .ok new =>
      match s.owner with
      | none => pure ()
      | some o =>
        require (o = d.id) (.foreignGrowth old)
        markDirty new
      loadStack new
      setStack old (← stack old).retire
      return (.ok new, saved)

def grow (required : Nat) (saved : List Word) : Act (BlockId × List Word) := do
  let (r, saved) ← tryGrow required saved
  return (← orRaise r, saved)

/-- Grow if fewer than `required` words are free. -/
def ensure (required : Nat) : Act Unit := do
  if (← domain).headroom < required then
    let _ ← grow required []

/-- Grow once if fewer than twice the threshold are free. The words in `registers` stay reachable. -/
def maybeExpand (registers : List Word) : Act (List Word) := do
  let margin ← check (Size.double (← config).stackThresholdWords)
  if (← domain).headroom < margin then
    return (← grow 0 registers).2
  else return registers

/-- Set the limit of growth, at least to what is in use and the threshold. -/
def changeLimit (limit : Nat) : Act Unit := do
  let d ← domain
  let limit := max limit (← check (Size.add d.used (← config).stackThresholdWords))
  if limit ≠ d.limit then noteSize .limitChanged limit
  modifyDomain fun d => { d with limit }

/-! ### Words -/

/-- Store in the topmost word of the current stack where the registers of the caller are, or that there are none. -/
def setRegisterSlot (offset : Option Int) : Act Unit := do
  let r ← registers
  require (r.pointer < 0) .noHeader
  let header := match offset with
    | some o => Word.ofInt o
    | none => Word.null
  setStack r.current (← check ((← stack r.current).setWord r.pointer header))

/-- **Push a word,** growing the stack first if it is full. -/
def push (w : Word) : Act Unit := do
  guardBlocking .push
  ensure 1
  let r ← registers
  let r := { r with used := r.used + 1 }
  setStack r.current (← check ((← stack r.current).setWord r.pointer w))
  modifyDomain fun d => { d with registers := some r }

def pop : Act (Option Word) := do
  guardBlocking .pop
  match (← domain).registers with
  | none => return none
  | some r =>
    if r.used = 0 then return none
    let w := (← stack r.current).word? r.pointer
    modifyDomain fun d => { d with registers := some { r with used := r.used - 1 } }
    return w

/-- The word so many places below the top. -/
def peek (depth : Nat) : Act (Option Word) := do
  match (← domain).registers with
  | none => return none
  | some r =>
    if r.used ≤ depth then return none
    return (← stack r.current).word? (r.pointer + depth)

end Act

end FiberStacks
