import FiberStacks.Proofs.Drain.Pass
import FiberStacks.Proofs.Runs.Deeds

/-!
# Minor passes of whole machines

Whatever has been done to a machine, the stacks that carry the mark of a domain are queued by it, and its registers
describe the current stack.  So a minor pass of the domain shows exactly those stacks, leaves nothing for a second one,
and does not touch the other domains.

* `Machine.Drained` — **what a minor pass does to a machine**;
* `Machine.scanRemembered_drained` — in a machine with its marks in order;
* `Machine.scanRemembered_exact` — **whatever has been done before**.
-/

namespace FiberStacks

open FiberStacks.Action

namespace Machine

variable {τ : Type} {m m' : Machine} {d e : DomainId} {x : Domain} {v : Visitor τ} {t t' : τ} {l : List BlockId}

theorem Orderly.mem_queue {b : BlockId} (h : m.Orderly) (hx : m.domain? d = some x)
    (hb : m.world.heap.owner? b = some x.id) : b ∈ x.remembered.queue := by
  obtain ⟨y, hy, hyid, hq⟩ := h.queued b x.id hb
  have hxy := h.domain?_of_mem hy
  rw [hyid, id_of_domain? hx, hx] at hxy
  exact Option.some.inj hxy ▸ hq

/-- **What a minor pass of a domain does**, which shows the stacks `l`: the pass itself, and nothing to the other
domains. -/
structure Drained (d : DomainId) (v : Visitor τ) (l : List BlockId) (t t' : τ) (m m' : Machine) : Prop where
  /-- The stacks that carry the mark of the domain are shown, each once, and no other is. -/
  pass : ∃ x x', m.domain? d = some x ∧ m'.domain? d = some x' ∧ MinorPass v l t t' ⟨x, m.world⟩ ⟨x', m'.world⟩
  others : ∀ e, e ≠ d → m'.domain? e = m.domain? e
  /-- A pass right after it shows nothing and changes nothing. -/
  again : ∀ (ρ : Type) (w : Visitor ρ) (q : ρ), m'.act d (Act.scanRemembered w q) = some (.ok (0, q), m')

/-- **A minor pass** in a machine with its marks in order, by a domain whose registers describe its stack. -/
theorem scanRemembered_drained (v : Visitor τ) (t : τ) (hm : m.Orderly) (hx : m.domain? d = some x)
    (hseated : x.Seated m.world.heap) (hlayout : m.world.layout = .bytecode)
    (hqueue : ∀ b ∈ x.remembered.queue, m.world.heap.contains b = true → ∃ y, m.world.heap.stack? b = some y) :
    ∃ l t' m', m.act d (Act.scanRemembered v t) = some (.ok (l.length, t'), m') ∧ Drained d v l t t' m m' := by
  have hid : x.id = d := id_of_domain? hx
  obtain ⟨⟨n, t'⟩, u, hrun, l, rfl, hpass⟩ := exists_of_wp
    (Act.scanRemembered_minorPass (s := ⟨x, m.world⟩) v t hseated hlayout (fun b hb => hm.mem_queue hx hb) hqueue)
  have huid : u.domain.id = d := by rw [hpass.domain]; exact hid
  have hlookup : ∀ e, (m.setDomain u.domain).domain? e = if e = d then some u.domain else m.domain? e := fun e => by
    rw [domain?_setDomain (huid ▸ hx), huid]
  let m' : Machine := { m.setDomain u.domain with world := u.world }
  have hself : m'.domain? d = some u.domain := (hlookup d).trans (if_pos rfl)
  refine ⟨l, t', m', ?_, ⟨x, u.domain, hx, hself, hpass⟩, fun e he => (hlookup e).trans (if_neg he), fun ρ w q => ?_⟩
  · rw [act, hx, Option.map_some, hrun]
  · have hagain : Act.scanRemembered w q ⟨u.domain, m'.world⟩ = (.ok (0, q), u) := hpass.again w q
    rw [act, hself, Option.map_some, hagain]
    exact congrArg (fun k : Machine => some (Except.ok (0, q), { k with world := u.world }))
      (m.setDomain_setDomain rfl)

/-- **Minor passes are exact.**  Whatever has been done to a machine, under the bytecode layout and if a domain has
queued nothing but stacks and blocks that are gone, serving its queue shows the stacks that carry its mark, each once
and with the words pushed since the last save, and returns their number; no stack carries its mark afterwards, its queue
is empty, marks and queues of the other domains are as they were, and a second pass shows nothing.  This takes registers
that describe the current stack, and within a budget they always do. -/
theorem scanRemembered_exact {config : Config} {layout : Layout} {maxWords minorLimit : Nat}
    (hm : Arises config layout maxWords minorLimit m) (hx : m.domain? d = some x) (hlayout : m.world.layout = .bytecode)
    (hqueue : ∀ b ∈ x.remembered.queue, m.world.heap.contains b = true → ∃ y, m.world.heap.stack? b = some y) :
    (maxWords < 2 ^ 32 → x.Seated m.world.heap) ∧ (x.Seated m.world.heap → ∀ (τ : Type) (v : Visitor τ) (t : τ),
      ∃ l t' m', m.act d (Act.scanRemembered v t) = some (.ok (l.length, t'), m') ∧ Drained d v l t t' m m') :=
  ⟨fun hbudget => (hm.inPlace hbudget).seated x (List.mem_of_find?_eq_some hx),
    fun hseated _ v t => scanRemembered_drained v t hm.orderly hx hseated hlayout hqueue⟩

/-- Two domains save their main stacks.  The first one runs for a while on a stack that is freed later, on another one
in its place, and on a third one that is freed as well; then it pushes a word. -/
def queuedTwice : List Event :=
  [.create, .ask ⟨1⟩ .start, .create, .ask ⟨2⟩ .start, .ask ⟨2⟩ (.call .save), .ask ⟨1⟩ (.call .save),
    .alloc (.stack (.blank 8 .zero)) .quiet, .ask ⟨1⟩ (.load ⟨2⟩), .ask ⟨1⟩ (.call .save), .ask ⟨1⟩ (.load ⟨0⟩),
    .free ⟨2⟩,
    .alloc (.stack (.blank 8 .zero)) .quiet, .ask ⟨1⟩ (.load ⟨2⟩), .ask ⟨1⟩ (.call .save), .ask ⟨1⟩ (.load ⟨0⟩),
    .alloc (.stack (.blank 8 .zero)) .quiet, .ask ⟨1⟩ (.load ⟨3⟩), .ask ⟨1⟩ (.call .save), .ask ⟨1⟩ (.load ⟨0⟩),
    .free ⟨3⟩, .ask ⟨1⟩ (.call (.push .unit))]

/-- A queue that names one stack twice and a block that is gone, and a word that was not saved. -/
theorem scanRemembered_exact_queuedTwice : ∃ m x, Arises { initStackWords := 16 } .bytecode 100 100 m ∧
    m.domain? ⟨1⟩ = some x ∧ x.remembered.queue = [⟨0⟩, ⟨2⟩, ⟨2⟩, ⟨3⟩] ∧ x.used = 1 ∧ m.world.layout = .bytecode ∧
    (∀ b ∈ x.remembered.queue, m.world.heap.contains b = true → ∃ y, m.world.heap.stack? b = some y) ∧
    ∀ (τ : Type) (v : Visitor τ) (t : τ),
      ∃ l t' m', m.act ⟨1⟩ (Act.scanRemembered v t) = some (.ok (l.length, t'), m') ∧ Drained ⟨1⟩ v l t t' m m' := by
  have hseen : (small.chronicle queuedTwice).map (fun p => (decide (∀ r ∈ p.1, r.Fair),
      (p.2.domain? ⟨1⟩).map fun x => (x.remembered.queue, x.used), p.2.world.layout,
      ([⟨0⟩, ⟨2⟩, ⟨2⟩, ⟨3⟩] : List BlockId).map fun b =>
        (p.2.world.heap.contains b, (p.2.world.heap.stack? b).isSome))) =
      some (true, some ([⟨0⟩, ⟨2⟩, ⟨2⟩, ⟨3⟩], 1), .bytecode,
        [(true, true), (true, true), (true, true), (false, false)]) := by
    rfl
  obtain ⟨⟨rs, m⟩, hc, hm⟩ := Option.map_eq_some_iff.1 hseen
  obtain ⟨hfair, hm⟩ := Prod.mk.inj hm
  obtain ⟨hdomain, hm⟩ := Prod.mk.inj hm
  obtain ⟨hlayout, hstacks⟩ := Prod.mk.inj hm
  obtain ⟨x, hx, hxq⟩ := Option.map_eq_some_iff.1 hdomain
  obtain ⟨hq, hused⟩ := Prod.mk.inj hxq
  have harises : Arises { initStackWords := 16 } .bytecode 100 100 m :=
    ⟨false, follows_of_chronicle hc (of_decide_eq_true hfair)⟩
  have hqueue : ∀ b ∈ x.remembered.queue, m.world.heap.contains b = true → ∃ y, m.world.heap.stack? b = some y := by
    rw [hq]
    simp only [List.map_cons, List.map_nil, List.cons.injEq, Prod.mk.injEq, and_true] at hstacks
    simp [← Option.isSome_iff_exists, hstacks]
  have hexact := scanRemembered_exact harises hx hlayout hqueue
  exact ⟨m, x, harises, hx, hq, hused, hlayout, hqueue, hexact.2 (hexact.1 (by decide))⟩

end Machine

end FiberStacks
