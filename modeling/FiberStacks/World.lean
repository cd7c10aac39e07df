import FiberStacks.Config
import FiberStacks.Domain
import FiberStacks.Segment.Roots

/-!
# The world

What all domains share: the heap, the locks, the table of predefined exceptions, the register of domains and the
log.  The log has every entry, also where the level that is listened to leaves those of the level debug unwritten.

* `Notice` — an entry of the log, with its level and wording;
* `World.adopt`, `World.allocate` — changes of the heap, with what the log says of them;
* `World.createTable` — the identifiers of the predefined exceptions;
* `World.createDomain` — a new domain.
-/

namespace FiberStacks

inductive Level where
  | debug
  | warn
  | error
deriving DecidableEq, Repr

def Level.name : Level → String
  | debug => "DEBUG"
  | warn => "WARN"
  | error => "ERROR"

inductive Notice where
  | mainStackAllocated (block : BlockId) (words : Nat)
  | stackAllocated (block : BlockId) (words : Nat)
  | growing (words : Nat)
  | limitChanged (words : Nat)
  | overflow (required limit : Nat)
  | domainReady (domain : DomainId) (stack : BlockId)
  | domainEnded (domain : DomainId) (cleared : Nat)
  | marksCleared (domain : DomainId) (cleared : Nat)
  | collectionDue (number live : Nat)
  | tableCreated (entries : Nat)
  | tableKept
  | processEnded (cause : Fatal)
deriving DecidableEq, Repr

namespace Notice

def level : Notice → Level
  | tableKept => .warn
  | processEnded _ => .error
  | _ => .debug

def message : Notice → String
  | mainStackAllocated b n => "Allocate main stack " ++ b.text ++ " of " ++ Text.decimal n ++ " words"
  | stackAllocated b n => "Allocate stack " ++ b.text ++ " of " ++ Text.decimal n ++ " words"
  | growing n => "Growing stack to " ++ Text.decimal (Size.kibibytes n) ++ "k bytes"
  | limitChanged n => "Changing stack limit to " ++ Text.decimal (Size.kibibytes n) ++ "k bytes"
  | overflow r l => "stack overflow: " ++ Text.decimal r ++ " words needed, limit " ++ Text.decimal l
  | domainReady d b => d.text ++ " initialised with main stack " ++ b.text
  | domainEnded d n => d.text ++ " terminated, " ++ Text.decimal n ++ " dirty stacks released"
  | marksCleared d n => "cleared " ++ Text.decimal n ++ " dirty stacks of " ++ d.text
  | collectionDue k n =>
    "minor collection requested (#" ++ Text.decimal k ++ "), " ++ Text.decimal n ++ " live words"
  | tableCreated n => "registered " ++ Text.decimal n ++ " predefined exceptions"
  | tableKept => "global data already initialised, keeping the existing table"
  | processEnded x => x.message

def line (n : Notice) : String := n.level.name ++ ": " ++ n.message

end Notice

/-- What all domains share. -/
structure World where
  config : Config
  layout : Layout
  heap : Heap
  /-- The identifiers of the predefined exceptions, once they exist. -/
  table : Option (List Word)
  /-- The domains alive, and whether each is ready. -/
  registry : List (DomainId × Bool)
  locks : Locks
  /-- The log, oldest entry first. -/
  log : List Notice
  /-- Entries of the level debug are written, which works out their figures. -/
  verbose : Bool
  /-- Number of domains created. -/
  domainsCreated : Nat
  /-- Number of lock records made. -/
  locksTaken : Nat
deriving DecidableEq, Repr

namespace World

/-- A world before start-up. -/
def initial (config : Config) (layout : Layout) (heap : Heap) : World :=
  { config, layout, heap, table := none, registry := [], locks := .empty, log := [], verbose := false,
    domainsCreated := 0, locksTaken := 0 }

/-- The layout a configuration alone gives: a table of compiled frames knows only the ends of fibers. -/
def defaultLayout (c : Config) : Layout :=
  match c.layout with
  | .bytecode => .bytecode
  | .native => .native (.build [])

def defaultHeap (c : Config) : Heap := .empty c.maxHeapWords c.minorHeapWords

def note (w : World) (n : Notice) : World := { w with log := w.log ++ [n] }

/-- Take over a changed heap; collections it asks for go to the log. -/
def adopt (w : World) (h : Heap) : World :=
  let before := w.heap.requests.length
  let asked := (h.requests.drop before).zipIdx.map fun p => Notice.collectionDue (before + p.2 + 1) p.1
  { w with heap := h, log := w.log ++ asked }

def allocate (w : World) (o : Object) (path : AllocPath) : Except AllocError (BlockId × World) :=
  (w.heap.alloc o path).map fun r => (r.1, w.adopt r.2)

/-- Clear all marks of a domain, and count them. -/
def cleanAll (w : World) (d : DomainId) : Nat × World :=
  let n := (w.heap.dirtiedBy d).length
  let w' := w.adopt (w.heap.cleanAll d)
  (n, if n = 0 then w' else w'.note (.marksCleared d n))

/-- The object behind the identifier of an exception: its name, and its place in the table as a negative number. -/
def identifier (name : BlockId) (place : Nat) : Object :=
  .block identifierTag [.ofBlock name, .ofInt (-↑place - 1)]

/-- Allocate identifiers from some place of the table on. -/
def allocateIdentifiers : World → (place : Nat) → List Exn → Except Failure (List Word) × World
  | w, _, [] => (.ok [], w)
  | w, place, e :: rest =>
    match w.allocate (.text e.name) .quiet with
    | .error x => (.error x.toFailure, w)
    | .ok (name, w₁) =>
      match w₁.allocate (identifier name place) .quiet with
      | .error x => (.error x.toFailure, w₁)
      | .ok (b, w₂) =>
        match allocateIdentifiers w₂ (place + 1) rest with
        | (.ok ws, w₃) => (.ok (.ofBlock b :: ws), w₃)
        | (.error x, w₃) => (.error x, w₃)

/-- Create the table of predefined exceptions, unless there is one. -/
def createTable (w : World) : Except Failure Unit × World :=
  match w.table with
  | some _ => (.ok (), w.note .tableKept)
  | none =>
    match w.allocateIdentifiers 0 Exn.all with
    | (.error x, w') => (.error x, w')
    | (.ok ws, w') => (.ok (), { w' with table := some ws }.note (.tableCreated Exn.all.length))

/-- The identifier of a predefined exception. -/
def identifier? (w : World) (e : Exn) : Option Word := w.table.bind fun ws => ws[e.index]?

def createDomain (w : World) : Domain × World :=
  let id : DomainId := ⟨w.domainsCreated + 1⟩
  (.fresh id w.config.maxStackWords,
    { w with domainsCreated := id.number, registry := w.registry ++ [(id, false)] })

def isReady? (w : World) (d : DomainId) : Option Bool := w.registry.lookup d

def setReady (w : World) (d : DomainId) : World :=
  { w with registry := w.registry.map fun p => if p.1 = d then (d, true) else p }

def deregister (w : World) (d : DomainId) : World :=
  { w with registry := w.registry.filter fun p => p.1 != d }

end World

end FiberStacks
