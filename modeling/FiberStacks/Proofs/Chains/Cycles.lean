import FiberStacks.Proofs.Chains.Turned

/-!
# Cycles turned round

When the links from a stack never end, turning them round goes along the tail, once round the cycle, and is back where
it entered the cycle.  The link it follows there is one it has changed already: it goes back along the tail, which gets
its old links again, and leaves for the stack the links were to be turned onto.  From there it is in another chain, and
whether the cycle is noticed depends on how many stacks the heap has room for.

* `Heap.Swung` — **the heap after the walk has been round the cycle**;
* `Heap.reverseWithin_lasso` — the walk up to there;
* `Heap.reverseWithin_endless` — between two walks that never stop it goes on until it is given up;
* `Heap.Escapes` — the walk gets to the end of what the current stack leads to, within as many steps as there are cells;
* `Act.findPerformer_endless` — **a cycle is noticed exactly if the walk does not escape**.
-/

namespace FiberStacks

open FiberStacks.Action

theorem Links.Leads.headD_eq {L : Links} {b c : BlockId} {l : List BlockId} (h : L.Leads (some b) l (some c)) :
    l.headD c = b := by
  cases h <;> rfl

namespace Heap

variable {h h' : Heap} {b c p x stack current : BlockId} {rest : Option BlockId} {as cs l lc : List BlockId} {n : Nat}

/-- **A walk of links that are turned has been round a cycle**: its tail is as it was, the cycle is turned round, and
no other cell has changed. -/
structure Swung (h : Heap) (b : BlockId) (as : List BlockId) (c : BlockId) (cs : List BlockId) (h' : Heap) : Prop where
  lasso : h'.links.Lasso b as c cs.reverse
  others : ∀ x ∉ as ++ c :: cs, h'.cell? x = h.cell? x

/-- **The links of a tail and a cycle turned round**: along the tail, round the cycle, and back along the tail. -/
theorem reverseWithin_lasso (stack p : BlockId) (hl : h.links.Lasso b as c cs) :
    ∃ h', h.Swung b as c cs h' ∧ TurnsTo stack (2 * as.length + cs.length + 2) (h, p, some b) (h', b, some p) := by
  obtain ⟨has, hccs, hdisj⟩ := List.nodup_append.1 hl.nodup
  have hc : c ∉ cs := (List.nodup_cons.1 hccs).1
  obtain ⟨h₁, ht₁, hrun₁⟩ := reverseWithin_leads stack p hl.leads hl.nodup
  -- where the cycle was entered, the links lead back along the tail now
  have hback := ht₁.leads_reverse hl.leads.live
  generalize (as ++ c :: cs).getLastD p = z at hrun₁ hback
  rw [List.reverse_append, List.reverse_cons, List.append_assoc] at hback
  obtain ⟨next, hround, htail⟩ := hback.of_append
  obtain rfl : next = some c := htail.next_eq
  have hnodup : (c :: as.reverse).Nodup := by
    refine List.nodup_cons.2 ⟨fun hmem => ?_, (List.reverse_perm as).nodup_iff.2 has⟩
    exact hdisj c (List.mem_reverse.1 hmem) c List.mem_cons_self rfl
  obtain ⟨h₂, ht₂, hrun₂⟩ := reverseWithin_leads stack z htail hnodup
  -- and along the tail they lead to the cycle again
  have hforth := ht₂.leads_reverse htail.live
  have hb : ([c] ++ as.reverse).getLastD z = b := by
    rw [List.singleton_append, List.getLastD_cons, List.getLastD_eq_getLast?, List.getLast?_reverse,
      ← List.headD_eq_head?_getD, hl.tail.headD_eq]
  rw [hb] at hforth hrun₂
  rw [List.reverse_append, List.reverse_reverse] at hforth
  obtain ⟨next, htail', hc'⟩ := hforth.of_append
  obtain rfl : next = some c := hc'.next_eq
  have hoff : ∀ x ∈ cs.reverse, x ∉ c :: as.reverse := fun x hx hx' => by
    have hx := List.mem_reverse.1 hx
    rcases List.mem_cons.1 hx' with rfl | hx'
    · exact hc hx
    · exact hdisj x (List.mem_reverse.1 hx') x (List.mem_cons_of_mem c hx) rfl
  refine ⟨h₂, ⟨⟨htail', hc'.append (ht₂.leads hround hoff), ?_⟩, fun x hx => ?_⟩, ?_⟩
  · exact (((List.reverse_perm cs).cons c).append_left as).nodup_iff.2 hl.nodup
  · have hx' : x ∉ c :: as.reverse := fun h => hx (by
      rcases List.mem_cons.1 h with rfl | h
      · simp
      · exact List.mem_append_left _ (List.mem_reverse.1 h))
    rw [ht₂.others x hx', ht₁.others x hx]
  · have hsteps := hrun₁.trans hrun₂
    simp only [List.length_append, List.length_cons, List.length_nil, List.length_reverse] at hsteps
    rwa [show 2 * as.length + cs.length + 2 = as.length + (cs.length + 1) + (0 + 1 + as.length) by omega]

/-- What leads on for ever does so afterwards. -/
theorem Swung.endless (hs : h.Swung b as c cs h') (hl : h.links.Lasso b as c cs) (hx : h.links.Endless x) :
    h'.links.Endless x := by
  refine .of_closed (S := h.links.Endless) (fun y hy => ?_) hx
  by_cases hmem : y ∈ as ++ c :: cs
  · have hlive : ∀ z ∈ as ++ c :: cs.reverse, h.links.Endless z := fun z hz => hl.endless_of_mem (by simpa using hz)
    obtain ⟨q, hq, rfl | ⟨z, hz, rfl⟩⟩ := hs.lasso.leads.link (x := y) (by simpa using hmem)
    · exact ⟨c, hq, hlive c (by simp)⟩
    · exact ⟨z, hq, hlive z hz⟩
  · obtain ⟨q, hq, hend⟩ := hy.link
    exact ⟨q, (links_congr (hs.others y hmem)).trans hq, hend⟩

theorem exists_lasso (hb : h.links.Endless b) : ∃ as c cs, h.links.Lasso b as c cs := by
  refine hb.exists_lasso (n := h.capacity) fun l hnodup hlive => ?_
  refine length_le_capacity_of_nodup hnodup fun x hx => ?_
  obtain ⟨p, hp⟩ := Option.isSome_iff_exists.1 (hlive x hx)
  obtain ⟨s, hs, -⟩ := stack?_of_links hp
  exact ⟨s, hs⟩

/-- **Between two walks that never stop** links are turned to and fro until that is given up. -/
theorem reverseWithin_endless (stack : BlockId) (hb : h.links.Endless b) (hp : h.links.Endless p) :
    reverseWithin stack n h p (some b) = .error (.parentCycle stack) := by
  induction n using Nat.strong_induction_on generalizing h b p with
  | _ n ih =>
    obtain ⟨as, c, cs, hl⟩ := exists_lasso hb
    obtain ⟨h', hs, hrun⟩ := reverseWithin_lasso stack p hl
    rw [hrun n]
    split
    · rfl
    · exact ih _ (by omega) (hs.endless hl hp) (hs.endless hl hb)

/-- **The walk escapes**: with as many steps as there are cells it goes along the tail, round the cycle, back along the
tail, and past all that the current stack leads to. -/
def Escapes (h : Heap) (current b : BlockId) : Prop :=
  ∃ as c cs lc rest, h.links.Lasso b as c cs ∧ h.links.Leads (some current) lc rest ∧ h.links.Stop rest ∧
    2 * as.length + (c :: cs).length + 1 + (lc ++ rest.toList).length ≤ h.capacity

theorem reverseWithin_stop (head p : BlockId) (hrest : h.links.Stop rest) (n : Nat) :
    reverseWithin head n h p rest =
      if n < rest.toList.length then .error (.parentCycle head)
      else rest.elim (.ok (p, h)) fun x => .error (.notStack x) := by
  cases rest with
  | none => exact reverseWithin_none head p n h
  | some x =>
    cases n with
    | zero => rfl
    | succ n =>
      have hx : h.stack? x = none := by simpa [links] using hrest x rfl
      simp [reverseWithin, stack, hx, bind, Except.bind]

/-- **The walk from a cycle on into what stops**: there the links are turned as those of a chain are. -/
theorem reverseChain_stops (hl : h.links.Lasso b as c cs) (hlc : h.links.Leads (some current) lc rest)
    (hrest : h.links.Stop rest) :
    ∃ h', h'.links.Reversed b lc ∧ h'.links.Endless b ∧ h.reverseChain current b =
      if h.capacity < 2 * as.length + (c :: cs).length + 1 + (lc ++ rest.toList).length then .error (.parentCycle b)
      else rest.elim (.ok (lc.getLastD b, h')) fun x => .error (.notStack x) := by
  obtain ⟨h₁, hs, hrun₁⟩ := reverseWithin_lasso b current hl
  -- what stops is apart from what does not
  have hoff : ∀ x ∈ lc, x ∉ as ++ c :: cs := fun x hx hx' => hlc.not_endless hrest hx (hl.endless_of_mem hx')
  have hlc₁ : h₁.links.Leads (some current) lc rest := hlc.congr fun x hx => links_congr (hs.others x (hoff x hx))
  obtain ⟨h₂, ht, hrun₂⟩ := reverseWithin_leads b b hlc₁ (hlc.nodup hrest)
  have hlasso : h₂.links.Lasso b as c cs.reverse :=
    hs.lasso.congr fun x hx => ht.links_of_notMem fun hx' => hoff x hx' (by simpa using hx)
  have hrest₂ : h₂.links.Stop rest := by
    intro x hx
    have hnone : h.links x = none := hrest x hx
    have hlasso : x ∉ as ++ c :: cs := fun hmem => by simpa [hnone] using hl.leads.live x hmem
    have hlive : x ∉ lc := fun hmem => by simpa [hnone] using hlc.live x hmem
    rw [ht.links_of_notMem hlive, links_congr (hs.others x hlasso), hnone]
  refine ⟨h₂, ht.reversed hlc₁.live, hlasso.endless, ?_⟩
  rw [reverseChain, (hrun₁.trans hrun₂) h.capacity, reverseWithin_stop b _ hrest₂]
  simp only [List.length_cons, List.length_append]
  split
  · rw [if_pos (by omega)]
  · exact if_congr (by omega) rfl rfl

end Heap

namespace Act

variable {h : Heap} {current b : BlockId}

/-- **A cycle is noticed exactly if the walk does not escape.**  Where the links from a stack never end, turning them
round stops at the assertion against cycles unless, after the tail, the cycle and the tail again, there are steps left
for all that the current stack leads to.  If there are, the last stack of the current chain is returned as if it were
the end of the other one, and the links from the current stack never end either. -/
theorem findPerformer_endless (hb : h.links.Endless b) :
    (h.reverseChain current b = .error (.parentCycle b) ↔ ¬ h.Escapes current b) ∧
    (∀ lc, h.links.IsChain current lc → h.Escapes current b → ∃ last h', lc.getLast? = some last ∧
      h.reverseChain current b = .ok (last, h') ∧ h'.links.Endless current) ∧
    ∀ s r, s.world.heap = h → s.domain.registers = some r → r.current = current →
      (findPerformer b s = (.error (.fault (.parentCycle b)), s) ↔ ¬ h.Escapes current b) := by
  have hiff : h.reverseChain current b = .error (.parentCycle b) ↔ ¬ h.Escapes current b := by
    constructor
    · rintro herror ⟨as, c, cs, lc, rest, hl, hlc, hrest, hle⟩
      obtain ⟨h', -, -, hrun⟩ := Heap.reverseChain_stops hl hlc hrest
      rw [hrun, if_neg (Nat.not_lt.2 hle)] at herror
      cases rest <;> cases herror
    · intro hstays
      rcases h.links.endless_or_stops current with hcurrent | ⟨lc, rest, hlc, hrest⟩
      · exact Heap.reverseWithin_endless b hb hcurrent
      · obtain ⟨as, c, cs, hl⟩ := Heap.exists_lasso hb
        obtain ⟨h', -, -, hrun⟩ := Heap.reverseChain_stops hl hlc hrest
        rw [hrun, if_pos (Nat.lt_of_not_le fun hle => hstays ⟨as, c, cs, lc, rest, hl, hlc, hrest, hle⟩)]
  refine ⟨hiff, ?_, ?_⟩
  · rintro lc hchain ⟨as, c, cs, lc', rest, hl, hlc, hrest, hle⟩
    obtain ⟨rfl, rfl⟩ := (Links.isChain_iff_leads.1 hchain).unique Links.stop_none hlc hrest
    obtain ⟨h', hreversed, hend, hrun⟩ := Heap.reverseChain_stops hl hlc hrest
    rw [hrun, if_neg (Nat.not_lt.2 hle)]
    refine ⟨_, h', hchain.getLast?_eq_some b, rfl, ?_⟩
    cases hchain <;> exact hend.of_link hreversed.1
  · rintro s r rfl hr rfl
    rw [← hiff, findPerformer_apply hr]
    cases s.world.heap.reverseChain r.current b <;> simp

/-- A stack without parent, one that is its own parent, and so many blocks. -/
def knot (blocks : Nat) : Heap :=
  { Heap.empty 100 100 with
    cells := [some ⟨.old, .stack (.blank 1 .zero)⟩,
      some ⟨.young, .stack ((Segment.blank 1 .zero).setParent (some ⟨1⟩))⟩]
      ++ List.replicate blocks (some ⟨.young, .block 0 [.unit]⟩)
    liveWords := 14 + blocks }

theorem endless_knot (blocks : Nat) : (knot blocks).links.Endless ⟨1⟩ := by
  refine .of_closed (S := (· = ⟨1⟩)) ?_ rfl
  rintro x rfl
  exact ⟨⟨1⟩, rfl, rfl⟩

/-- A cycle that is noticed, and one that is not. -/
theorem findPerformer_endless_knot :
    ((knot 0).links.Endless ⟨1⟩ ∧ ¬ (knot 0).Escapes ⟨0⟩ ⟨1⟩) ∧ (knot 1).links.Endless ⟨1⟩ ∧
      ∃ h', (knot 1).reverseChain ⟨0⟩ ⟨1⟩ = .ok (⟨0⟩, h') ∧ h'.links.Endless ⟨0⟩ := by
  refine ⟨⟨endless_knot 0, (findPerformer_endless (endless_knot 0)).1.1 rfl⟩, endless_knot 1, ?_⟩
  have hchain : (knot 1).links.IsChain ⟨0⟩ [⟨0⟩] := Heap.chain_eq_ok_iff.1 rfl
  have hescapes : (knot 1).Escapes ⟨0⟩ ⟨1⟩ :=
    of_not_not fun h => by cases (findPerformer_endless (endless_knot 1)).1.2 h
  obtain ⟨last, h', hlast, hrun, hend⟩ := (findPerformer_endless (endless_knot 1)).2.1 _ hchain hescapes
  obtain rfl := Option.some.inj hlast
  exact ⟨h', hrun, hend⟩

def beforeKnot (blocks : Nat) : Active where
  domain := { Domain.fresh ⟨1⟩ 100 with registers := some ⟨⟨0⟩, 0, 1⟩ }
  world := .initial {} .bytecode (knot blocks)

/-- **A walk round a cycle can end in the chain of the current stack**, and a performer is returned. -/
theorem not_findPerformer_cycle :
    ¬ ∀ (s : Active) (r : Registers) (x : Segment) (b : BlockId), s.domain.registers = some r →
      s.world.heap.stack? r.current = some x → s.world.heap.links.Endless b →
      (findPerformer b s).1 = .error (.fault (.parentCycle b)) := by
  intro h
  have hnoticed := h (beforeKnot 1) _ _ ⟨1⟩ rfl rfl (endless_knot 1)
  cases hnoticed

end Act

end FiberStacks
