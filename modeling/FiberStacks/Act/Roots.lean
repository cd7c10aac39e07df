import FiberStacks.Act.Stack
import FiberStacks.Heap.Roots

/-!
# Roots of a domain

What a domain shows a collector. The live stack pointer is written back first, so that the words pushed since the
last save are seen.

* `Act.scanRoots` — the current stack, the local roots and the pending exception;
* `Act.scanRemembered` — the stacks queued since the last minor pass that are still dirty for the domain;
* `Act.scanAll` — every stack that can be reached from the current stack and the local roots.
-/

namespace FiberStacks

/-- Show the local roots, oldest frame first. -/
def LocalFrames.scan {τ : Type} (v : Visitor τ) (f : LocalFrames) (t : τ) : LocalFrames × τ :=
  let r := go f.toList t
  (.ofList r.1, r.2)
where
  /-- The same frame by frame. -/
  go : List LocalFrame → τ → List LocalFrame × τ
    | [], t => ([], t)
    | x :: rest, t =>
      let r := v.visitAll x.roots t
      let rs := go rest r.2
      ({ x with roots := r.1 } :: rs.1, rs.2)

namespace Act

variable {τ : Type}

def scanLocals (v : Visitor τ) (t : τ) : Act τ := do
  let r := (← domain).frames.scan v t
  modifyDomain fun d => { d with frames := r.1 }
  return r.2

def scanPending (v : Visitor τ) (t : τ) : Act τ := do
  match (← domain).pending with
  | none => return t
  | some w =>
    let r := v w t
    modifyDomain fun d => { d with pending := some r.1 }
    return r.2

def scanStack (v : Visitor τ) (b : BlockId) (t : τ) : Act τ := do
  let (h, t) ← check ((← heap).scanStack (← layout) v b t)
  setHeap h
  return t

/-- **Show the roots of the domain:** current stack, local roots, pending exception. -/
def scanRoots (v : Visitor τ) (t : τ) : Act τ := do
  syncStack
  let t ← match (← domain).current? with
    | some b => scanStack v b t
    | none => pure t
  let t ← scanLocals v t
  scanPending v t

/-- Show the roots of queued stacks that carry the mark of the domain, and clear the marks. Blocks that are no
longer live are skipped. Counts the stacks shown. -/
def scanQueued (v : Visitor τ) : List BlockId → τ → Act (Nat × τ)
  | [], t => pure (0, t)
  | b :: rest, t => do
    let h ← heap
    if h.contains b then
      let d ← domain
      let (dirty, h, t) ← check (h.scanIfDirty (← layout) v d.id b t)
      setHeap h
      if dirty then
        let (_, h) ← check (h.clean d.id b)
        setHeap h
        let (n, t) ← scanQueued v rest t
        return (n + 1, t)
      else scanQueued v rest t
    else scanQueued v rest t

/-- **Serve the queue of a minor pass** and count the stacks shown. -/
def scanRemembered (v : Visitor τ) (t : τ) : Act (Nat × τ) := do
  syncStack
  let queue := (← domain).remembered.queue
  modifyDomain fun d => { d with remembered := .empty }
  scanQueued v queue t

/-- The stacks a major pass starts from: the current one, and those the local roots lead to. -/
def majorRoots (d : Domain) (h : Heap) : List BlockId :=
  d.current?.toList ++
    d.frames.toList.flatMap fun x => x.roots.filterMap fun w => w.block?.bind h.leadsTo

/-- **Show the roots of every stack the domain can reach,** and count the stacks. -/
def scanAll (v : Visitor τ) (t : τ) : Act (Nat × τ) := do
  syncStack
  let roots := majorRoots (← domain) (← heap)
  let (n, h, t) ← check ((← heap).scanFrom (← layout) v roots t)
  setHeap h
  return (n, t)

/-- End the domain: its queue and its marks go. Counts the marks cleared. -/
def terminate : Act Nat := do
  modifyDomain fun d => { d with remembered := .empty }
  let d ← domain
  let n ← fun s =>
    let r := s.world.cleanAll d.id
    (.ok r.1, { s with world := r.2.deregister d.id })
  note (.domainEnded d.id n)
  return n

end Act

end FiberStacks
