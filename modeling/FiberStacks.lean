import FiberStacks.Describe
import FiberStacks.Config.Document
import FiberStacks.Proofs.Locks.Order
import FiberStacks.Proofs.Locks.Region
import FiberStacks.Proofs.Locks.Body
import FiberStacks.Proofs.Chains.Actions
import FiberStacks.Proofs.Chains.Calls
import FiberStacks.Proofs.Chains.Replicas
import FiberStacks.Proofs.Chains.MultiShot
import FiberStacks.Proofs.Heap.Books
import FiberStacks.Proofs.Heap.Budget
import FiberStacks.Proofs.Heap.Map
import FiberStacks.Proofs.Lists.Fresh
import FiberStacks.Proofs.Lists.Grow
import FiberStacks.Proofs.Lists.Machine
import FiberStacks.Proofs.Lists.Session
import FiberStacks.Proofs.Locks.Above
import FiberStacks.Proofs.Locks.Bracket
import FiberStacks.Proofs.Locks.Domains
import FiberStacks.Proofs.Barrier.Newcomers
import FiberStacks.Proofs.Barrier.Protocol
import FiberStacks.Proofs.Barrier.Relinked
import FiberStacks.Proofs.Frames.Table
import FiberStacks.Proofs.Frames.Walk
import FiberStacks.Proofs.Heap.Reachable
import FiberStacks.Proofs.Chains.Detached
import FiberStacks.Proofs.Heap.MainStack
import FiberStacks.Proofs.Locks.Held
import FiberStacks.Proofs.Runs.Registers
import FiberStacks.Proofs.Runs.OneShot
import FiberStacks.Proofs.Drain.Reused
import FiberStacks.Proofs.Chains.Cycles
import FiberStacks.Proofs.Chains.Spliced
import FiberStacks.Proofs.Frames.Endless
import FiberStacks.Proofs.Growth.Margin
import FiberStacks.Proofs.Runs.Payload
import FiberStacks.Proofs.Drain.Roots
import FiberStacks.Proofs.Heap.Pacing
import FiberStacks.Proofs.Growth.Figures
import FiberStacks.Proofs.Documents.Settings
import FiberStacks.Proofs.Frames.Fibers
import FiberStacks.Proofs.Chains.Listing
import FiberStacks.Proofs.Frames.Doublings
import FiberStacks.Proofs.Words
import FiberStacks.Proofs.Locks.Ledgers
import FiberStacks.Proofs.Triples
