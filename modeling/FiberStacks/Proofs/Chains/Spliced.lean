import FiberStacks.Proofs.Chains.Turned
import FiberStacks.Proofs.Growth.Spared
import FiberStacks.Proofs.Runs.Misuse

/-!
# Resuming, cell by cell

A domain that resumes a capsule takes the chain out of it, hangs it under its current stack, saves that one and runs on
the head.  The two chains being apart, what the current stack leads to is the end of the new chain.  A capsule with
nothing in it is refused with an exception, for which new blocks are allocated.

* `Heap.Hangs.leads` — behind a chain that hangs under a stack comes what that one leads to;
* `Act.switchStack_saves` — the switch to the head saves the stack left;
* `Spliced` — **what resuming a capsule leaves**;
* `Untouched` — everything there was is as it was;
* `Heap.Headless` — why there is no head in a capsule;
* `Act.resume_splices` — **a full capsule is resumed, and any other refused**.
-/

namespace FiberStacks

open FiberStacks.Action

variable {s t u : Active} {r : Registers} {x y : Segment} {b k p head last : BlockId} {l lc : List BlockId}
  {rest : Option BlockId} {ws : List Word}

namespace Heap

variable {h h' : Heap}

namespace Hangs

theorem links (hh : h.Hangs k head l p h') (hlast : l.getLast? = some last) :
    h'.links = h.links.set last (some p) := by
  obtain ⟨last', g, z, hlast', hz, hz'⟩ := hh.hung
  obtain rfl := Option.some.inj (hlast.symm.trans hlast')
  funext b
  by_cases hb : b = last
  · rw [hb, Links.set_self, links_of_stack? (stack?_of_cell? hz'), Segment.parent?_setParent]
  · rw [Links.set_of_ne hb, Heap.links, Heap.links,
      hh.stack?_of_ne fun he => hb (Option.some.inj (he.symm.trans hlast))]

/-- Behind the chain comes what the stack it hangs under leads to. -/
theorem leads (hh : h.Hangs k head l p h') (hl : h.links.IsChain head l)
    (hapart : ∀ b ∈ l, ¬ h.links.Reaches p b) (hlc : h.links.Leads (some p) lc rest) :
    h'.links.Leads (some head) (l ++ lc) rest := by
  have hlast := hl.getLast?_eq_some p
  rw [hh.links hlast]
  exact hl.hang hlast hlc fun hmem => hapart _ (List.mem_of_getLast? hlast) (hlc.reaches hmem)

theorem cell?_of_stack (hh : h.Hangs k head l p h') (hx : h.stack? b = some x) (hb : l.getLast? ≠ some b) :
    h'.cell? b = h.cell? b := by
  refine hh.others b ?_ hb
  rintro rfl
  obtain ⟨g, hk, -⟩ := hh.taken
  simp [stack?, get?, hk] at hx

/-- Every stack has its stack pointer and capacity. -/
theorem stack? (hh : h.Hangs k head l p h') (hx : h.stack? b = some x) :
    ∃ y, h'.stack? b = some y ∧ y.used = x.used ∧ y.capacity = x.capacity := by
  by_cases hb : l.getLast? = some b
  · obtain ⟨last, g, z, hlast, hz, hz'⟩ := hh.hung
    obtain rfl := Option.some.inj (hb.symm.trans hlast)
    obtain rfl := Option.some.inj ((stack?_of_cell? hz).symm.trans hx)
    exact ⟨_, stack?_of_cell? hz', rfl, rfl⟩
  · exact ⟨x, (hh.stack?_of_ne hb).trans hx, rfl, rfl⟩

end Hangs

end Heap

/-- Saving the current stack changes no link. -/
theorem Saves.links {q : Remembered} (hs : Saves s r x y q) :
    (s.world.heap.setStack r.current y).links = s.world.heap.links := by
  funext b
  by_cases hb : b = r.current
  · rw [hb, Heap.links_of_stack? hs.stack?_self, Heap.links_of_stack? hs.stack, Segment.parent?, Segment.parent?,
      hs.link]
  · rw [Heap.links, Heap.links, Heap.stack?_setStack_of_ne hb]

/-- What is saved of a stack the domain may mark: an old one carries its mark then, and is queued if it was clean. -/
theorem Saves.left {q : Remembered} (hs : Saves s r x y q) (howner : x.owner = none ∨ x.owner = some s.domain.id) :
    ∃ g, s.world.heap.cell? r.current = some ⟨g, .stack x⟩ ∧
      (s.world.heap.setStack r.current y).cell? r.current = some ⟨g, .stack y⟩ ∧
      (g = .old → y.owner = some s.domain.id) ∧
      if g = .old ∧ x.owner = none then q.queue = s.domain.remembered.queue ++ [r.current]
      else y.owner = x.owner ∧ q = s.domain.remembered := by
  obtain ⟨r', g, x', y', hr, hx, hy, -, -, -, -, hmark⟩ := hs.spared.current
  obtain rfl := Option.some.inj (hs.registers.symm.trans hr)
  obtain rfl := Option.some.inj ((Heap.stack?_of_cell? hx).symm.trans hs.stack)
  obtain rfl := Option.some.inj ((Heap.stack?_of_cell? hy).symm.trans hs.stack?_self)
  refine ⟨g, hx, hy, fun hold => ?_, ?_⟩
  · by_cases hclean : x'.owner = none
    · rw [if_pos ⟨hold, hclean⟩] at hmark
      exact hmark.1
    · rw [if_neg fun h => hclean h.2] at hmark
      exact hmark.1.trans (howner.resolve_left hclean)
  · split at hmark
    · next hclean => rw [if_pos hclean]; exact hmark.2
    · next hclean => rw [if_neg hclean]; exact hmark

namespace Act

/-- **A switch** from a stack the domain may mark saves it and loads the other one. -/
theorem switchStack_saves (hrun : Running s r x) (hblocking : s.domain.blocking = 0)
    (howner : x.owner = none ∨ x.owner = some s.domain.id) (hy : s.world.heap.stack? head = some y)
    (hhead : head ≠ r.current) :
    ∃ z q, Saves s r x z q ∧ switchStack head s = (.ok r.current,
      ⟨{ s.domain with remembered := q, registers := some ⟨head, y.used, y.capacity⟩ },
        { s.world with heap := s.world.heap.setStack r.current z }⟩) := by
  have hswitch : (switchStack head).wp s (fun p t => p = r.current ∧ ∃ z q, Saves s r x z q ∧ t =
      ⟨{ s.domain with remembered := q, registers := some ⟨head, y.used, y.capacity⟩ },
        { s.world with heap := s.world.heap.setStack r.current z }⟩) fun _ _ => False := by
    unfold switchStack guardBlocking
    simp only [wp_bind, wp_domain, wp_require]
    refine ⟨fun _ => wp_mono (saveStack_saves s) ?_ fun e _ he => ?_, fun h => absurd hblocking h⟩
    · rintro p t ⟨r', x', z, q, hs, rfl, rfl⟩
      obtain rfl := Option.some.inj (hs.registers.symm.trans hrun.registers)
      obtain rfl := Option.some.inj (hs.stack.symm.trans hrun.stack)
      refine wp_loadStack_of ?_ ⟨rfl, z, q, hs, rfl⟩
      exact (Heap.stack?_setStack_of_ne hhead).trans hy
    · obtain ⟨hnone, hother⟩ := he.2 r x hrun
      exact howner.elim hnone hother
  obtain ⟨p, t, hrunt, rfl, z, q, hs, rfl⟩ := exists_of_wp hswitch
  exact ⟨z, q, hs, hrunt⟩

end Act

/-- **What resuming a capsule leaves**: the capsule is spent, the last stack of its chain leads to the stack left, that
one is saved, and the domain runs on the head; nothing else has changed. -/
structure Spliced (s : Active) (k : BlockId) (r : Registers) (head : BlockId) (l : List BlockId) (t : Active) :
    Prop where
  taken : t.world.heap.capsule? k = some .taken
  /-- The head has the stack pointer saved in it. -/
  loaded : ∃ y, s.world.heap.stack? head = some y ∧ t.domain.registers = some ⟨head, y.used, y.capacity⟩
  /-- Behind the chain comes what the stack left leads to. -/
  leads : ∀ lc rest, s.world.heap.links.Leads (some r.current) lc rest →
    t.world.heap.links.Leads (some head) (l ++ lc) rest
  /-- The stack left has its words, handlers and parent, and the live stack pointer. -/
  left : ∃ g x y, s.world.heap.cell? r.current = some ⟨g, .stack x⟩ ∧
    t.world.heap.cell? r.current = some ⟨g, .stack y⟩ ∧ y.slots = x.slots ∧ y.handlers = x.handlers ∧
    y.link = x.link ∧ y.used = r.used ∧ (g = .old → y.owner = some s.domain.id) ∧
    if g = .old ∧ x.owner = none then t.domain.remembered.queue = s.domain.remembered.queue ++ [r.current]
    else y.owner = x.owner ∧ t.domain.remembered = s.domain.remembered
  /-- The last stack of the chain has another parent, and all else it had. -/
  hung : ∃ last g z, l.getLast? = some last ∧ s.world.heap.cell? last = some ⟨g, .stack z⟩ ∧
    t.world.heap.cell? last = some ⟨g, .stack (z.setParent (some r.current))⟩
  others : ∀ b, b ≠ k → b ≠ r.current → l.getLast? ≠ some b → t.world.heap.cell? b = s.world.heap.cell? b
  domain : t.domain = { s.domain with registers := t.domain.registers, remembered := t.domain.remembered }
  world : t.world = { s.world with heap := t.world.heap }
  heap : t.world.heap = { s.world.heap with cells := t.world.heap.cells }

namespace Act

/-- **A full capsule is resumed.** -/
theorem resume_spliced (hrun : Running s r x) (hblocking : s.domain.blocking = 0)
    (howner : x.owner = none ∨ x.owner = some s.domain.id) (hk : s.world.heap.capsule? k = some (.full head))
    (hl : s.world.heap.links.IsChain head l) (hapart : ∀ b ∈ l, ¬ s.world.heap.links.Reaches r.current b) :
    ∃ t, resume k s = (.ok r.current, t) ∧ Spliced s k r head l t := by
  have hp : r.current ∉ l := fun hmem => hapart _ hmem (.refl _ _)
  have hplast : l.getLast? ≠ some r.current := fun he => hp (List.mem_of_getLast? he)
  obtain ⟨h, hh, hresume⟩ := resume_eq_switchStack hrun.registers hk hl
  -- the current stack is as it was, and the head has the stack pointer it had
  have hcell := hh.cell?_of_stack hrun.stack hplast
  have hrun' : Running { s with world := { s.world with heap := h } } r x :=
    ⟨hrun.registers, (Heap.stack?_congr hcell).trans hrun.stack, hrun.capacity, hrun.used_le⟩
  obtain ⟨y, hy⟩ := Option.isSome_iff_exists.1 (Heap.isSome_stack?_of_isChain hl head hl.mem)
  obtain ⟨y', hy', hused, hcap⟩ := hh.stack? hy
  obtain ⟨z, q, hs, hswitch⟩ := switchStack_saves hrun' hblocking howner hy' (ne_of_mem_of_not_mem hl.mem hp)
  obtain ⟨g, hx, hz, hold, hmark⟩ := hs.left howner
  obtain ⟨_, -, hcells⟩ := hs.cell?
  have hothers : ∀ b, b ≠ r.current → (h.setStack r.current z).cell? b = h.cell? b := fun b hb =>
    (hcells b).trans (if_neg hb)
  refine ⟨_, hresume.trans hswitch, ?taken, ⟨y, hy, by rw [← hused, ← hcap]⟩, ?leads,
    ⟨g, x, z, hcell.symm.trans hx, hz, hs.slots, hs.handlers, hs.link, hs.used, hold, hmark⟩, ?hung, ?others, rfl, rfl,
    by rw [hh.heap]; rfl⟩
  case taken =>
    obtain ⟨gk, -, htaken⟩ := hh.taken
    have hne : k ≠ r.current := (Heap.ne_of_capsule? hk hrun.stack).symm
    simp [Heap.capsule?, Heap.get?, hothers k hne, htaken]
  case leads =>
    intro lc rest hlc
    exact hs.links.symm ▸ hh.leads hl hapart hlc
  case hung =>
    obtain ⟨last, gl, w, hlast, hw, hw'⟩ := hh.hung
    have hne : last ≠ r.current := fun he => hplast (he ▸ hlast)
    exact ⟨last, gl, w, hlast, hw, (hothers last hne).trans hw'⟩
  case others =>
    intro b hbk hbp hbl
    exact (hothers b hbp).trans (hh.others b hbk hbl)

end Act

/-! ### Refusing -/

/-- **Everything there was is as it was**: the registers and the queue of the domain, and all blocks; no stack is
new. -/
structure Untouched (s t : Active) : Prop where
  freeListed : t.world.heap.FreeListed
  registers : t.domain.registers = s.domain.registers
  remembered : t.domain.remembered = s.domain.remembered
  cells : ∀ b c, s.world.heap.cell? b = some c → t.world.heap.cell? b = some c
  segments : ∀ b, t.world.heap.stack? b = s.world.heap.stack? b

theorem Untouched.trans (h₁ : Untouched s t) (h₂ : Untouched t u) : Untouched s u where
  freeListed := h₂.freeListed
  registers := h₂.registers.trans h₁.registers
  remembered := h₂.remembered.trans h₁.remembered
  cells b c hc := h₂.cells b c (h₁.cells b c hc)
  segments b := (h₂.segments b).trans (h₁.segments b)

/-- **Why there is no head in a capsule**: the block is none, or it is empty or spent. -/
inductive Heap.Headless (h : Heap) (k : BlockId) : CapsuleMisuse → Prop where
  | notCapsule (hk : h.capsule? k = none) : Headless h k .notCapsule
  | misused {c : Capsule} {m : CapsuleMisuse} (hk : h.capsule? k = some c) (hc : c.Misused m) : Headless h k m

theorem Heap.exists_headless {h : Heap} (hk : ∀ head, h.capsule? k ≠ some (.full head)) : ∃ m, h.Headless k m := by
  cases hc : h.capsule? k with
  | none => exact ⟨_, .notCapsule hc⟩
  | some c =>
    cases c with
    | empty => exact ⟨_, .misused hc .empty⟩
    | full head => exact absurd hc (hk head)
    | taken => exact ⟨_, .misused hc .taken⟩

theorem Heap.Headless.takeHead {h : Heap} {m : CapsuleMisuse} (hk : h.Headless k m) :
    h.takeHead k = .error m.toFailure := by
  cases hk with
  | notCapsule hk => rw [Heap.takeHead, hk]
  | misused hk hc => exact takeHead_of_misused hk hc

namespace Act

theorem bookkeeping_untouched : Bookkeeping fun s t => s.world.heap.FreeListed → Untouched s t where
  trans h₁ h₂ hf := (h₁ hf).trans (h₂ (h₁ hf).freeListed)
  of_alike h hf := ⟨h.heap ▸ hf, h.registers, h.remembered, fun _ _ hc => h.heap ▸ hc, fun _ => by rw [h.heap]⟩
  alloc {s o path new h} ho _ ha hf := by
    rcases Heap.alloc_cell? hf ha with ⟨hnone, g, hcell⟩ | ⟨-, hcell⟩
    · have hold : ∀ b, b ≠ new → h.cell? b = s.world.heap.cell? b := fun b hb => (hcell b).trans (if_neg hb)
      refine ⟨hf.alloc ha, rfl, rfl, fun b c hc => (hold b ?_).trans hc, fun b => ?_⟩
      · rintro rfl
        cases hc.symm.trans hnone
      · by_cases hb : b = new
        · -- the new block is no stack, and there was none before
          have hnew : h.cell? new = some ⟨g, o⟩ := (hcell new).trans (if_pos rfl)
          subst hb
          cases o <;> simp_all [Heap.stack?, Heap.get?]
        · exact Heap.stack?_congr (hold b hb)
    · exact ⟨hf.alloc ha, rfl, rfl, fun b c hc => (hcell b).trans hc, fun b => Heap.stack?_congr (hcell b)⟩

/-- **A capsule without head is refused** with the exception for it. -/
theorem resume_refused {m : CapsuleMisuse} (hk : s.world.heap.Headless k m) (hf : s.world.heap.FreeListed) :
    ∃ e t, resume k s = (.error e, t) ∧ Untouched s t ∧
      (∀ ws, s.CanRaise ws → s.Raises e t) ∧
      ∀ ws, s.Catching ws → s.world.heap.Balanced →
        ∃ w, t.domain.pending = some w ∧ Refused ws s.world.heap m w t.world.heap := by
  have hends := wp_and (bookkeeping_untouched.relates (beside_raiseFailure (α := BlockId) m.toFailure) s)
    (stops_raiseFailure _ s)
  obtain ⟨e, t, hraise, huntouched⟩ := exists_error_of_wp (wp_mono hends (fun _ _ h => h.2) fun _ _ h => h.1)
  have htake : takeHead k s = (.error e, t) := by
    rw [← hraise, takeHead, bind_apply]
    simp only [heap, view, hk.takeHead]
  refine ⟨e, t, bind_of_error htake, huntouched hf, fun ws hs => ?_, fun ws hs hb => ?_⟩
  · exact (wp_of_error hraise).1 (raises_invalidArgument m.message hs)
  · exact ((wp_of_error hraise).1 (delivers_invalidArgument m.message hb hs)).2

/-- **Resuming a capsule.**  Outside a blocking section, on a stack that carries the mark of no other domain, a full
capsule whose chain is apart from the current one is spent: the domain runs on the head with the stack pointer saved in
it, behind the chain comes what the stack left leads to, that one holds its live stack pointer and is marked if it is
old, and nothing else has changed.  Any other block is refused: an exception is raised, and no block, register or queue
of before has changed. -/
theorem resume_splices (s : Active) (k : BlockId) :
    (∀ r x head l, Running s r x → s.domain.blocking = 0 → x.owner = none ∨ x.owner = some s.domain.id →
      s.world.heap.capsule? k = some (.full head) → s.world.heap.links.IsChain head l →
      (∀ b ∈ l, ¬ s.world.heap.links.Reaches r.current b) →
      ∃ t, resume k s = (.ok r.current, t) ∧ Spliced s k r head l t) ∧
    ((∀ head, s.world.heap.capsule? k ≠ some (.full head)) → s.world.heap.FreeListed →
      ∃ m e t, s.world.heap.Headless k m ∧ resume k s = (.error e, t) ∧ Untouched s t ∧
        (∀ ws, s.CanRaise ws → s.Raises e t) ∧
        ∀ ws, s.Catching ws → s.world.heap.Balanced →
          ∃ w, t.domain.pending = some w ∧ Refused ws s.world.heap m w t.world.heap) := by
  refine ⟨fun r x head l hrun hblocking howner hk hl hapart => resume_spliced hrun hblocking howner hk hl hapart,
    fun hk hf => ?_⟩
  obtain ⟨m, hm⟩ := Heap.exists_headless hk
  obtain ⟨e, t, h⟩ := resume_refused hm hf
  exact ⟨m, e, t, hm, h⟩

/-- A domain in a protected region on an old stack with a parent and a word not saved, a capsule over two stacks apart
from these, and a spent capsule. -/
def besideTwoChains : Active where
  domain := { Domain.fresh ⟨1⟩ 100 with registers := some ⟨⟨0⟩, 1, 1⟩, handlers := [⟨1, 0, 0⟩], ready := true }
  world :=
    { World.initial {} .bytecode { twoChains with
        cells := twoChains.cells ++ [some ⟨.young, .capsule (.full ⟨1⟩)⟩, some ⟨.young, .capsule .taken⟩]
        liveWords := 32 } with
      table := some (Exn.all.map fun _ => .ofInt 9) }

/-- A capsule that is resumed, and one that is refused. -/
theorem resume_splices_twoChains :
    (∃ t, resume ⟨4⟩ besideTwoChains = (.ok ⟨0⟩, t) ∧
      Spliced besideTwoChains ⟨4⟩ ⟨⟨0⟩, 1, 1⟩ ⟨1⟩ [⟨1⟩, ⟨2⟩] t ∧
      t.world.heap.links.IsChain ⟨1⟩ [⟨1⟩, ⟨2⟩, ⟨0⟩, ⟨3⟩]) ∧
    ∃ t, resume ⟨5⟩ besideTwoChains = (.error .raised, t) ∧ Untouched besideTwoChains t := by
  constructor
  · have hl : besideTwoChains.world.heap.links.IsChain ⟨1⟩ [⟨1⟩, ⟨2⟩] := Heap.chain_eq_ok_iff.1 rfl
    have hc : besideTwoChains.world.heap.links.IsChain ⟨0⟩ [⟨0⟩, ⟨3⟩] := Heap.chain_eq_ok_iff.1 rfl
    have hdisj : ∀ x ∈ ([⟨1⟩, ⟨2⟩] : List BlockId), x ∉ ([⟨0⟩, ⟨3⟩] : List BlockId) := by decide
    obtain ⟨t, hrun, hspliced⟩ := (resume_splices besideTwoChains ⟨4⟩).1 ⟨⟨0⟩, 1, 1⟩ _ ⟨1⟩ [⟨1⟩, ⟨2⟩]
      ⟨rfl, rfl, rfl, by decide⟩ rfl (.inl rfl) rfl hl fun x hx hr => hdisj x hx (hc.reaches_iff.1 hr)
    exact ⟨t, hrun, hspliced, Links.isChain_iff_leads.2 (hspliced.leads _ _ (Links.isChain_iff_leads.1 hc))⟩
  · have hfree : besideTwoChains.world.heap.FreeListed := ⟨List.nodup_nil, nofun⟩
    have hraise : besideTwoChains.CanRaise (Exn.all.map fun _ => .ofInt 9) :=
      ⟨rfl, rfl, [], .nil, nofun, List.nil_subperm⟩
    obtain ⟨m, e, t, -, hrun, huntouched, hraises, -⟩ := (resume_splices besideTwoChains ⟨5⟩).2 nofun hfree
    obtain rfl : e = .raised := (hraises _ hraise).2
    exact ⟨t, hrun, huntouched⟩

end Act

end FiberStacks
