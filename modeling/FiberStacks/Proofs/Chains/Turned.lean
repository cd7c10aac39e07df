import FiberStacks.Act.Resume
import FiberStacks.Proofs.Chains.Paths
import FiberStacks.Proofs.Chains.Stacks
import FiberStacks.Proofs.Outcome

/-!
# Chains turned round

Turning the links of a chain round goes along the chain and lets every stack point to the one met before it, the first
one to the stack it is turned onto.  The walk never comes to a stack whose link it has changed already, so it ends where
the chain ends, and a walk from there meets the stacks in reverse.

* `Heap.Turned` — **the heap with these links turned round**, cell by cell;
* `Heap.TurnsTo` — the loop that turns links comes from one place to another in so many steps;
* `Heap.reverseWithin_leads` — so it does along the links it follows, by induction on the stacks met;
* `Heap.reverseChain_spec` — a chain turned round, and whether all links lead to an end afterwards;
* `Act.findPerformer_apply` — a domain turns a chain round onto its current stack;
* `Act.findPerformer_turns` — **turning a chain round that is apart from the chain of the current stack**.
-/

namespace FiberStacks

open FiberStacks.Action

namespace Heap

variable {h h' : Heap} {b c p stack current : BlockId} {next rest : Option BlockId} {l lc : List BlockId}

/-- **The links of these stacks turned round onto `p`**: each has the stack before it as its parent, the first one `p`,
and nothing else has changed. -/
structure Turned (h : Heap) (p : BlockId) (l : List BlockId) (h' : Heap) : Prop where
  /-- A stack turned has its words, handlers, stack pointer, mark and age. -/
  turned : ∀ (i : Nat) b g x, l[i]? = some b → h.cell? b = some ⟨g, .stack x⟩ →
    h'.cell? b = some ⟨g, .stack (x.setParent (p :: l)[i]?)⟩
  others : ∀ b ∉ l, h'.cell? b = h.cell? b
  heap : h' = { h with cells := h'.cells }
  capacity : h'.capacity = h.capacity

namespace Turned

theorem refl (h : Heap) (p : BlockId) : h.Turned p [] h := ⟨by simp, fun _ _ => rfl, rfl, rfl⟩

/-- One stack before the others. -/
theorem cons {x : Segment} (hx : h.stack? b = some x) (hb : b ∉ l)
    (ht : (h.setStack b (x.setParent (some p))).Turned b l h') : h.Turned p (b :: l) h' where
  turned i c g y hc hy := by
    obtain ⟨g', hg⟩ := cell?_of_stack? hx
    cases i with
    | zero =>
      obtain rfl := Option.some.inj hc
      obtain ⟨rfl, rfl⟩ : g' = g ∧ x = y := by simpa using hg.symm.trans hy
      rw [ht.others b hb, cell?_setStack hg, if_pos rfl]
      rfl
    | succ i =>
      have hcl : l[i]? = some c := hc
      have hcb : c ≠ b := ne_of_mem_of_not_mem (List.mem_of_getElem? hcl) hb
      exact ht.turned i c g y hc (by rw [cell?_setStack hg, if_neg hcb, hy])
  others c hc := by
    obtain ⟨g, hg⟩ := cell?_of_stack? hx
    rw [List.mem_cons, not_or] at hc
    rw [ht.others c hc.2, cell?_setStack hg, if_neg hc.1]
  heap := ht.heap
  capacity := ht.capacity.trans (capacity_setStack ..)

theorem links_of_notMem (ht : h.Turned p l h') (hb : b ∉ l) : h'.links b = h.links b := links_congr (ht.others b hb)

theorem links_getElem? (ht : h.Turned p l h') (hlive : ∀ b ∈ l, (h.links b).isSome) {i : Nat} (hb : l[i]? = some b) :
    h'.links b = some (p :: l)[i]? := by
  obtain ⟨q, hq⟩ := Option.isSome_iff_exists.1 (hlive b (List.mem_of_getElem? hb))
  obtain ⟨x, hx, -⟩ := stack?_of_links hq
  obtain ⟨g, hg⟩ := cell?_of_stack? hx
  rw [links_of_stack? (stack?_of_cell? (ht.turned i b g x hb hg)), Segment.parent?_setParent]

/-- What is not turned leads where it led. -/
theorem leads (ht : h.Turned p l h') (hc : h.links.Leads next lc rest) (hdisj : ∀ b ∈ lc, b ∉ l) :
    h'.links.Leads next lc rest :=
  hc.congr fun b hb => ht.links_of_notMem (hdisj b hb)

end Turned

theorem Turned.reversed (ht : h.Turned p l h') (hlive : ∀ b ∈ l, (h.links b).isSome) : h'.links.Reversed p l := by
  have hfrom : ∀ (q : BlockId) (k : Nat), (p :: l)[k]? = some q → h'.links.Reversed q (l.drop k) := by
    intro q k hq
    generalize hrest : l.drop k = rest
    induction rest generalizing q k with
    | nil => trivial
    | cons b rest ih =>
      have hb : l[k]? = some b := by rw [← List.head?_drop, hrest]; rfl
      refine ⟨by rw [ht.links_getElem? hlive hb, hq], ih b (k + 1) (by simpa using hb) ?_⟩
      rw [← List.drop_drop, hrest]
      rfl
  exact hfrom p 0 rfl

/-- **Links turned round lead back.** -/
theorem Turned.leads_reverse (ht : h.Turned p l h') (hlive : ∀ b ∈ l, (h.links b).isSome) :
    h'.links.Leads (some (l.getLastD p)) l.reverse (some p) :=
  (ht.reversed hlive).leads

theorem reverseWithin_none (stack p : BlockId) (n : Nat) (h : Heap) :
    reverseWithin stack n h p none = .ok (p, h) := by
  cases n <;> rfl

/-- **The loop that turns links comes from one place to another** in so many steps, or is given up before.  A place is a
heap, the stack the next link will point to, and the stack whose link that is. -/
def TurnsTo (stack : BlockId) (k : Nat) (s t : Heap × BlockId × Option BlockId) : Prop :=
  ∀ n, reverseWithin stack n s.1 s.2.1 s.2.2 =
    if n < k then .error (.parentCycle stack) else reverseWithin stack (n - k) t.1 t.2.1 t.2.2

theorem TurnsTo.trans {s t u : Heap × BlockId × Option BlockId} {k m : Nat} (hs : TurnsTo stack k s t)
    (ht : TurnsTo stack m t u) : TurnsTo stack (k + m) s u := by
  intro n
  rw [hs n, ht (n - k), Nat.sub_sub]
  by_cases hk : n < k
  · rw [if_pos hk, if_pos (by omega)]
  · rw [if_neg hk]
    exact if_congr (by omega) rfl rfl

theorem exists_stack_of_leads (hl : h.links.Leads (some b) (b :: l) rest) :
    ∃ x, h.stack? b = some x ∧ h.links.Leads x.parent? l rest := by
  cases hl with
  | cons hb hq =>
    obtain ⟨x, hx, rfl⟩ := stack?_of_links hb
    exact ⟨x, hx, hq⟩

/-- **One loop of turning links**, along as many as there are steps for.  It goes on from where they lead to. -/
theorem reverseWithin_leads (stack p : BlockId) (hl : h.links.Leads next l rest) (hnodup : l.Nodup) :
    ∃ h', h.Turned p l h' ∧ TurnsTo stack l.length (h, p, next) (h', l.getLastD p, rest) := by
  induction l generalizing h p next with
  | nil =>
    cases hl
    exact ⟨h, .refl h p, fun _ => rfl⟩
  | cons b l ih =>
    obtain ⟨hmem, hnodup⟩ := List.nodup_cons.1 hnodup
    obtain rfl := hl.next_eq
    obtain ⟨x, hx, hq⟩ := exists_stack_of_leads hl
    -- the links ahead are as they were
    have hahead : (h.setStack b (x.setParent (some p))).links.Leads x.parent? l rest := by
      rw [links_setStack hx]
      exact hq.congr fun c hc => Links.set_of_ne (ne_of_mem_of_not_mem hc hmem) _
    obtain ⟨h', ht, hrun⟩ := ih b hahead hnodup
    refine ⟨h', .cons hx hmem ht, fun n => ?_⟩
    cases n with
    | zero => simp [reverseWithin]
    | succ n =>
      rw [reverseWithin, stack_eq_ok_iff.2 hx, List.getLastD_cons]
      simpa [bind, Except.bind] using hrun n

/-- **The links of a chain turned round.**  There are as many steps as the chain is long. -/
theorem reverseChain_turned (current : BlockId) (hl : h.links.IsChain b l) :
    ∃ h', h.Turned current l h' ∧ h.reverseChain current b = .ok (l.getLastD current, h') := by
  obtain ⟨h', ht, hrun⟩ := reverseWithin_leads b current (Links.isChain_iff_leads.1 hl) hl.nodup
  refine ⟨h', ht, ?_⟩
  rw [reverseChain, hrun h.capacity, if_neg (Nat.not_lt.2 (length_le_capacity hl)), reverseWithin_none]

/-- **Turning a chain round**: it succeeds, and all links lead to an end afterwards exactly if the chain of the stack
it is turned onto ends and is apart from it. -/
theorem reverseChain_spec (current : BlockId) (hL : h.links.Ending) (hl : h.links.IsChain b l) :
    ∃ last h', h.reverseChain current b = .ok (last, h') ∧
      (h'.links.Ending ↔ ∃ lc, h.links.IsChain current lc ∧ lc.Disjoint l) := by
  obtain ⟨h', ht, hrun⟩ := reverseChain_turned current hl
  exact ⟨_, h', hrun, (ht.reversed hl.live).ending_iff hL hl fun x hx => ht.links_of_notMem hx⟩

end Heap

namespace Act

variable {s : Active} {r : Registers}

theorem findPerformer_apply (hr : s.domain.registers = some r) (b : BlockId) :
    findPerformer b s =
      match s.world.heap.reverseChain r.current b with
      | .ok (last, h) => (.ok last, { s with world := s.world.adopt h })
      | .error f => (.error (.fault f), s) := by
  unfold findPerformer registers
  simp only [domain, heap, bind_apply, view, hr, pure_apply]
  cases s.world.heap.reverseChain r.current b <;> rfl

/-- **Turning a chain round.**  Whatever the heap, if the chain of a stack ends and no stack of it is reached from the
current one, turning it round returns its last stack.  From there one walks the chain in reverse, comes to the current
stack, and goes on as before; links apart, no cell has changed. -/
theorem findPerformer_turns {h : Heap} {current b : BlockId} {l : List BlockId} (hl : h.links.IsChain b l)
    (hapart : ∀ x ∈ l, ¬ h.links.Reaches current x) :
    ∃ last h', l.getLast? = some last ∧ h.reverseChain current b = .ok (last, h') ∧
      (∀ s r, s.world.heap = h → s.domain.registers = some r → r.current = current →
        findPerformer b s = (.ok last, { s with world := { s.world with heap := h' } })) ∧
      h.Turned current l h' ∧
      h'.links.Leads (some last) l.reverse (some current) ∧
      (∀ lc rest, h.links.Leads (some current) lc rest → h'.links.Leads (some last) (l.reverse ++ lc) rest) ∧
      ∀ lc, h.links.IsChain current lc → h'.links.IsChain last (l.reverse ++ lc) := by
  obtain ⟨h', ht, hturn⟩ := Heap.reverseChain_turned current hl
  have hback := ht.leads_reverse hl.live
  -- what the current stack leads to is not turned
  have hon : ∀ lc rest, h.links.Leads (some current) lc rest →
      h'.links.Leads (some (l.getLastD current)) (l.reverse ++ lc) rest :=
    fun lc rest hc => hback.append (ht.leads hc fun x hx hxl => hapart x hxl (hc.reaches hx))
  refine ⟨_, h', hl.getLast?_eq_some current, hturn, ?_, ht, hback, hon, fun lc hc => ?_⟩
  · rintro s r rfl hr rfl
    have hreq : h'.requests = s.world.heap.requests := by rw [ht.heap]
    rw [findPerformer_apply hr, hturn]
    simp only [World.adopt_of_requests hreq]
  · exact Links.isChain_iff_leads.2 (hon lc none (Links.isChain_iff_leads.1 hc))

/-- A stack with a parent, and a chain of two stacks apart from them. -/
def twoChains : Heap :=
  { Heap.empty 100 100 with
    cells := [some ⟨.old, .stack ((Segment.blank 1 .zero).setParent (some ⟨3⟩))⟩,
      some ⟨.old, .stack ((Segment.blank 1 .zero).setParent (some ⟨2⟩))⟩,
      some ⟨.young, .stack (.blank 1 .zero)⟩, some ⟨.old, .stack (.blank 1 .zero)⟩]
    liveWords := 28 }

/-- A chain of two stacks turned round onto one of two others. -/
theorem findPerformer_turns_twoChains :
    twoChains.links.IsChain ⟨1⟩ [⟨1⟩, ⟨2⟩] ∧ (∀ x ∈ [⟨1⟩, ⟨2⟩], ¬ twoChains.links.Reaches ⟨0⟩ x) ∧
      ∃ h', twoChains.reverseChain ⟨0⟩ ⟨1⟩ = .ok (⟨2⟩, h') ∧ twoChains.Turned ⟨0⟩ [⟨1⟩, ⟨2⟩] h' ∧
        h'.links.IsChain ⟨2⟩ [⟨2⟩, ⟨1⟩, ⟨0⟩, ⟨3⟩] := by
  have hl : twoChains.links.IsChain ⟨1⟩ [⟨1⟩, ⟨2⟩] := Heap.chain_eq_ok_iff.1 rfl
  have hc : twoChains.links.IsChain ⟨0⟩ [⟨0⟩, ⟨3⟩] := Heap.chain_eq_ok_iff.1 rfl
  have hdisj : ∀ x ∈ ([⟨1⟩, ⟨2⟩] : List BlockId), x ∉ ([⟨0⟩, ⟨3⟩] : List BlockId) := by decide
  have hapart : ∀ x ∈ [⟨1⟩, ⟨2⟩], ¬ twoChains.links.Reaches ⟨0⟩ x := fun x hx hr => hdisj x hx (hc.reaches_iff.1 hr)
  obtain ⟨last, h', hlast, hturn, -, ht, -, -, hchain⟩ := findPerformer_turns hl hapart
  obtain rfl := Option.some.inj hlast
  exact ⟨hl, hapart, h', hturn, ht, hchain _ hc⟩

end Act

end FiberStacks
