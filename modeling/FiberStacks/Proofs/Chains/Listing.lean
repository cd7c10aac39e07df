import FiberStacks.Proofs.Chains.Cycles

/-!
# Listing a chain

The walk along a chain remembers the stacks it has met, and does not look whether it meets one again.  It gives up when
it has met more stacks than the heap has cells, full and free ones together.  No chain is that long, and a walk that
leaves the stacks has done so before, so nothing but a cycle is taken for one.

* `Lists` — the walk as it runs, with its test before each stack, and without a bound on its steps;
* `lists_chain` — **it ends**, as `chain` says;
* `chainWithin_stop`, `chainWithin_endless` — what it comes to where the links stop, and where they never do;
* `chain_decides` — **how the walk ends, and when**.
-/

namespace FiberStacks.Heap

variable {h : Heap} {b head : BlockId} {n : Nat} {l : List BlockId} {rest : Option BlockId}

/-! ### The walk as it runs -/

/-- **The walk along a chain**: `l` are the stacks met so far, and `next` is where it goes from there.  Before a stack
is looked at, it is tested whether there were more of them than the heap has cells. -/
inductive Lists (h : Heap) (head : BlockId) :
    (l : List BlockId) → (next : Option BlockId) → (r : Except Fault (List BlockId)) → Prop where
  | done {l : List BlockId} : Lists h head l none (.ok l)
  | long {l : List BlockId} {b : BlockId} (hl : h.capacity < l.length) :
      Lists h head l (some b) (.error (.parentCycle head))
  | strays {l : List BlockId} {b : BlockId} (hl : l.length ≤ h.capacity) (hb : h.stack? b = none) :
      Lists h head l (some b) (.error (.notStack b))
  | next {l : List BlockId} {b : BlockId} {s : Segment} {r : Except Fault (List BlockId)} (hl : l.length ≤ h.capacity)
      (hb : h.stack? b = some s) (hs : Lists h head (l ++ [b]) s.parent? r) : Lists h head l (some b) r

theorem lists_chainWithin (hn : l.length + n = h.capacity + 1) :
    h.Lists head l (some b) ((h.chainWithin head n b).map (l ++ ·)) := by
  induction n generalizing b l with
  | zero => exact .long (by omega)
  | succ n ih =>
    have hl : l.length ≤ h.capacity := by omega
    rw [chainWithin_succ]
    cases hs : h.stack? b with
    | none =>
      rw [links, hs]
      exact .strays hl hs
    | some s =>
      rw [links_of_stack? hs]
      refine .next hl hs ?_
      cases s.parent? with
      | none => exact .done
      | some p =>
        have hrest := ih (b := p) (l := l ++ [b]) (by simp; omega)
        cases hr : h.chainWithin head n p <;> simpa [hr, Except.map] using hrest

/-- **The walk ends**, as `chain` says. -/
theorem lists_chain (h : Heap) (head : BlockId) : h.Lists head [] (some head) (h.chain head) := by
  have hwalk : h.Lists head [] (some head) ((h.chainWithin head (h.capacity + 1) head).map ([] ++ ·)) :=
    lists_chainWithin (Nat.zero_add _)
  cases hr : h.chain head <;> rw [chain] at hr <;> simpa [hr, Except.map] using hwalk

/-! ### What the walk comes to -/

/-- **Where the links stop**, the walk ends with the stacks of a chain, or at the first block that is no stack. -/
theorem chainWithin_stop (head : BlockId) (hl : h.links.Leads (some b) l rest) (hrest : h.links.Stop rest)
    (hn : (l ++ rest.toList).length ≤ n) :
    h.chainWithin head n b = rest.elim (.ok l) fun x => .error (.notStack x) := by
  induction l generalizing b n with
  | nil =>
    cases hl
    obtain ⟨n, rfl⟩ : ∃ m, n = m + 1 := Nat.exists_eq_add_of_le' hn
    rw [chainWithin_succ, hrest b rfl]
    rfl
  | cons y l ih =>
    obtain rfl := Option.some.inj hl.next_eq
    obtain ⟨n, rfl⟩ : ∃ m, n = m + 1 := Nat.exists_eq_add_of_le' (Nat.one_le_of_lt hn)
    cases hl with
    | @cons _ q _ _ hb hq =>
      rw [chainWithin_succ, hb]
      cases q with
      | none =>
        cases hq
        rfl
      | some p =>
        simp only [ih hq (Nat.le_of_succ_le_succ hn)]
        cases rest <;> rfl

/-- **Where the links never stop**, the walk gives up, after as many steps as it may take. -/
theorem chainWithin_endless (head : BlockId) (hb : h.links.Endless b) (n : Nat) :
    h.chainWithin head n b = .error (.parentCycle head) := by
  induction n generalizing b with
  | zero => rfl
  | succ n ih =>
    obtain ⟨p, hp, hend⟩ := hb.link
    simp only [chainWithin_succ, hp, ih hend]
    rfl

theorem length_le_size_of_leads (hl : h.links.Leads (some b) l rest) (hrest : h.links.Stop rest) :
    l.length ≤ h.size := by
  -- a walk that stops meets no stack twice
  refine length_le_size_of_nodup (hl.nodup hrest) fun x hx => ?_
  obtain ⟨p, hp⟩ := Option.isSome_iff_exists.1 (hl.live x hx)
  obtain ⟨s, hs, -⟩ := stack?_of_links hp
  exact ⟨s, hs⟩

theorem chain_stop (hl : h.links.Leads (some b) l rest) (hrest : h.links.Stop rest) :
    h.chain b = rest.elim (.ok l) fun x => .error (.notStack x) := by
  refine chainWithin_stop b hl hrest ?_
  have hlen := Nat.le_trans (length_le_size_of_leads hl hrest) h.size_le_capacity
  cases rest <;> simp <;> omega

/-- **How the walk along a chain ends, and when.**  It ends, whatever the links are.  It returns stacks exactly if the
links lead from the first one along these stacks, in this order, to a stack without parent, and then none is there twice
and there are no more of them than live blocks.  It reports a cycle exactly if the links can be followed for ever, and a
block that is no live stack exactly if they lead along live stacks to that block; it reports nothing else. -/
theorem chain_decides (h : Heap) (head : BlockId) :
    h.Lists head [] (some head) (h.chain head) ∧
    (∀ l, h.chain head = .ok l ↔ h.links.Leads (some head) l none) ∧
    (∀ l, h.chain head = .ok l → l.Nodup ∧ l.length ≤ h.size) ∧
    (h.chain head = .error (.parentCycle head) ↔ h.links.Endless head) ∧
    (∀ x, h.chain head = .error (.notStack x) ↔
      ∃ l, h.links.Leads (some head) l (some x) ∧ h.stack? x = none) ∧
    ∀ f, h.chain head = .error f →
      f = .parentCycle head ∧ f.message = "cycle in the parent chain of " ++ head.text ∨
        ∃ x, f = .notStack x ∧ f.message = x.text ++ " is not a live stack segment" := by
  have hok : ∀ l, h.chain head = .ok l ↔ h.links.Leads (some head) l none := fun l =>
    chain_eq_ok_iff.trans Links.isChain_iff_leads
  have hdead : ∀ x, h.links.Stop (some x) ↔ h.stack? x = none := by simp [Links.Stop, links]
  have hcycle : h.links.Endless head → h.chain head = .error (.parentCycle head) := fun hend =>
    chainWithin_endless head hend _
  refine ⟨lists_chain h head, hok, fun l hl => ?_, ⟨fun hc => ?_, hcycle⟩, fun x => ⟨fun hx => ?_, ?_⟩, fun f hf => ?_⟩
  · have hleads := (hok l).1 hl
    exact ⟨hleads.nodup Links.stop_none, length_le_size_of_leads hleads Links.stop_none⟩
  · -- a walk that stops is not given up
    rcases h.links.endless_or_stops head with hend | ⟨l, rest, hl, hrest⟩
    · exact hend
    · rw [chain_stop hl hrest] at hc
      cases rest <;> cases hc
  · rcases h.links.endless_or_stops head with hend | ⟨l, rest, hl, hrest⟩
    · rw [hcycle hend] at hx
      cases hx
    · rw [chain_stop hl hrest] at hx
      cases rest <;> cases hx
      exact ⟨l, hl, (hdead x).1 hrest⟩
  · rintro ⟨l, hl, hx⟩
    exact chain_stop hl ((hdead x).2 hx)
  · rcases h.links.endless_or_stops head with hend | ⟨l, rest, hl, hrest⟩
    · rw [hcycle hend] at hf
      cases hf
      exact .inl ⟨rfl, rfl⟩
    · rw [chain_stop hl hrest] at hf
      cases rest with
      | none => cases hf
      | some x =>
        cases hf
        exact .inr ⟨x, rfl, rfl⟩

/-- One stack on top of another one, in a heap without any other cell. -/
def twoCells : Heap :=
  { Heap.empty 100 100 with
    cells := [some ⟨.old, .stack (.blank 1 .zero)⟩, some ⟨.old, .stack ((Segment.blank 1 .zero).setParent (some ⟨0⟩))⟩]
    liveWords := 14 }

/-- A chain through every cell there is. -/
theorem chain_decides_twoCells :
    twoCells.chain ⟨1⟩ = .ok [⟨1⟩, ⟨0⟩] ∧ twoCells.capacity = 2 ∧
      twoCells.links.Leads (some ⟨1⟩) [⟨1⟩, ⟨0⟩] none ∧ [(⟨1⟩ : BlockId), ⟨0⟩].Nodup := by
  have hchain : twoCells.chain ⟨1⟩ = .ok [⟨1⟩, ⟨0⟩] := rfl
  obtain ⟨-, hok, hshort, -⟩ := chain_decides twoCells ⟨1⟩
  exact ⟨hchain, rfl, (hok _).1 hchain, (hshort _ hchain).1⟩

end FiberStacks.Heap
