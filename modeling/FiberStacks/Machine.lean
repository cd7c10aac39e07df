import FiberStacks.Act.Resume
import FiberStacks.Act.Roots

/-!
# The machine

All domains and the world they share. A domain acts by `Machine.act`; what a stopped action has changed stays
changed.
-/

namespace FiberStacks

/-- The state of everything. -/
structure Machine where
  world : World
  /-- The domains that have not ended, in order of creation. -/
  domains : List Domain
deriving DecidableEq, Repr

namespace Machine

/-- No domain in a world before start-up. -/
def initial (world : World) : Machine := ⟨world, []⟩

def domain? (m : Machine) (d : DomainId) : Option Domain := m.domains.find? fun x => x.id == d

def setDomain (m : Machine) (x : Domain) : Machine :=
  { m with domains := m.domains.map fun y => if y.id = x.id then x else y }

def create (m : Machine) : DomainId × Machine :=
  let r := m.world.createDomain
  (r.1.id, ⟨r.2, m.domains ++ [r.1]⟩)

/-- Let a domain act, if there is one of that number. -/
def act {α : Type} (m : Machine) (d : DomainId) (a : Act α) : Option (Except Stop α × Machine) :=
  (m.domain? d).map fun x =>
    let r := a ⟨x, m.world⟩
    (r.1, { m.setDomain r.2.domain with world := r.2.world })

/-- End a domain and count the marks cleared. -/
def terminate (m : Machine) (d : DomainId) : Option (Except Stop Nat × Machine) :=
  (m.act d Act.terminate).map fun r => (r.1, { r.2 with domains := r.2.domains.filter fun x => x.id != d })

end Machine

end FiberStacks
