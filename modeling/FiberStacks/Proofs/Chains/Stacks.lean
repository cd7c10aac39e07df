import FiberStacks.Heap.Chain
import FiberStacks.Heap.Mark
import FiberStacks.Proofs.Chains.Links
import FiberStacks.Proofs.Heap.Arena
import FiberStacks.Proofs.Words

/-!
# Chains in the heap

The parent links a heap holds, and what the changes of a heap do to them.

* `chain_eq_ok_iff` — the walk along a chain finds it, if it comes to an end;
* `chainsEnd_iff` — so all walks succeed exactly if all links lead to an end;
* `Quiet` — a change that leaves the links alone;
* `links_setStack`, `links_alloc_stack` — a link set, a new stack.
-/

namespace FiberStacks

namespace Segment

@[simp] theorem parent?_setParent (s : Segment) (p : Option BlockId) : (s.setParent p).parent? = p :=
  Word.block?_ofLink p

@[simp] theorem parent?_deepCopy (s : Segment) : s.deepCopy.parent? = s.parent? := rfl

@[simp] theorem parent?_retire (s : Segment) : s.retire.parent? = none := Word.block?_ofLink none

end Segment

namespace Heap

/-- The parent links of the stacks of a heap. -/
def links (h : Heap) : Links := fun b => (h.stack? b).map Segment.parent?

/-- **From every live stack the walk along its chain succeeds**: it comes to a stack without parent. -/
def ChainsEnd (h : Heap) : Prop := ∀ b s, h.stack? b = some s → ∃ l, h.chain b = .ok l

variable {h h' : Heap} {b head : BlockId} {s : Segment} {l : List BlockId}

theorem links_of_stack? (hs : h.stack? b = some s) : h.links b = some s.parent? := by
  unfold links
  rw [hs]
  rfl

theorem stack?_of_links {p : Option BlockId} (hl : h.links b = some p) : ∃ s, h.stack? b = some s ∧ s.parent? = p :=
  Option.map_eq_some_iff.1 hl

theorem links_congr (hcell : h'.cell? b = h.cell? b) : h'.links b = h.links b := by
  rw [links, links, stack?_congr hcell]

/-! ### Walks -/

/-- **One step of the walk**: to the parent, or the end, or astray. -/
theorem chainWithin_succ (head b : BlockId) (n : Nat) :
    h.chainWithin head (n + 1) b = match h.links b with
      | none => .error (.notStack b)
      | some none => .ok [b]
      | some (some p) => (h.chainWithin head n p).map (b :: ·) := by
  rw [chainWithin, stack, links]
  cases h.stack? b with
  | none => rfl
  | some s =>
    simp only [Option.map_some, bind, Except.bind]
    cases s.parent? <;> rfl

theorem chainWithin_eq_ok_iff {n : Nat} : h.chainWithin head n b = .ok l ↔ h.links.IsChain b l ∧ l.length ≤ n := by
  induction n generalizing b l with
  | zero =>
    constructor
    · simp [chainWithin]
    · rintro ⟨hc, hlen⟩
      obtain rfl := List.length_eq_zero_iff.1 (Nat.le_zero.1 hlen)
      exact absurd hc.mem (by simp)
  | succ n ih =>
    rw [chainWithin_succ]
    rcases hl : h.links b with _ | _ | p
    · constructor
      · simp
      · rintro ⟨hc, -⟩
        simpa [hl] using hc.live b hc.mem
    · simp only [Except.ok.injEq]
      constructor
      · rintro rfl
        exact ⟨.last hl, by simp⟩
      · rintro ⟨hc, -⟩
        exact (Links.IsChain.last hl).unique hc
    · constructor
      · intro he
        cases hrest : h.chainWithin head n p with
        | error f => simp [hrest, Except.map] at he
        | ok rest =>
          simp only [hrest, Except.map, Except.ok.injEq] at he
          obtain ⟨hc, hlen⟩ := ih.1 hrest
          subst he
          exact ⟨.cons hl hc, by simpa using hlen⟩
      · rintro ⟨hc, hlen⟩
        cases hc with
        | last hb => simp [hl] at hb
        | cons hb hc =>
          obtain rfl := Option.some.inj (Option.some.inj (hl.symm.trans hb))
          simp only [ih.2 ⟨hc, by simpa using hlen⟩, Except.map]

theorem isSome_stack?_of_isChain (hc : h.links.IsChain b l) : ∀ x ∈ l, (h.stack? x).isSome := by
  intro x hx
  have hlive := hc.live x hx
  rwa [links, Option.isSome_map] at hlive

theorem length_le_capacity (hc : h.links.IsChain b l) : l.length ≤ h.capacity := by
  refine length_le_capacity_of_nodup hc.nodup fun x hx => ?_
  obtain ⟨p, hp⟩ := Option.isSome_iff_exists.1 (hc.live x hx)
  obtain ⟨s, hs, -⟩ := stack?_of_links hp
  exact ⟨s, hs⟩

theorem chain_eq_ok_iff : h.chain b = .ok l ↔ h.links.IsChain b l := by
  unfold chain
  rw [chainWithin_eq_ok_iff]
  exact and_iff_left_of_imp fun hc => Nat.le_succ_of_le (length_le_capacity hc)

theorem chainsEnd_iff : h.ChainsEnd ↔ h.links.Ending := by
  simp only [ChainsEnd, chain_eq_ok_iff]
  refine forall_congr' fun b => ⟨fun he hb => ?_, fun he s hs => he (by simp [links_of_stack? hs])⟩
  obtain ⟨p, hp⟩ := Option.isSome_iff_exists.1 hb
  obtain ⟨s, hs, -⟩ := stack?_of_links hp
  exact he s hs

theorem chainsEnd_iff_forall_lt : h.ChainsEnd ↔
    ∀ i < h.capacity, (h.stack? (.ofIndex i)).isSome → (h.chain (.ofIndex i)).toOption.isSome := by
  constructor
  · intro he i _ hi
    obtain ⟨s, hs⟩ := Option.isSome_iff_exists.1 hi
    obtain ⟨l, hl⟩ := he _ s hs
    rw [hl]
    rfl
  · intro he b s hs
    obtain ⟨g, hc⟩ := cell?_of_stack? hs
    have hlt := (List.getElem?_eq_some_iff.1 (Option.join_eq_some_iff.1 hc)).1
    have hb := he b.index hlt
    rw [BlockId.ofIndex_index] at hb
    cases hl : h.chain b with
    | ok l => exact ⟨l, rfl⟩
    | error e =>
      have hnone := hb (by rw [hs]; rfl)
      rw [hl] at hnone
      cases hnone

instance : Decidable h.ChainsEnd := decidable_of_iff _ chainsEnd_iff_forall_lt.symm

/-! ### Changes -/

theorem links_of_cell? (hcell : ∀ x, h'.cell? x = h.cell? x) : h'.links = h.links := by
  funext x
  unfold links stack? get?
  rw [hcell]

theorem links_setStack {s' : Segment} (hs : h.stack? b = some s) :
    (h.setStack b s').links = h.links.set b s'.parent? := by
  funext x
  unfold links Links.set
  rw [stack?_setStack hs]
  split <;> rfl

/-- **A change that leaves the links alone**, and the arena in order. -/
structure Quiet (h h' : Heap) : Prop where
  capacity : h.capacity ≤ h'.capacity
  freeListed : h.FreeListed → h'.FreeListed
  links : h.FreeListed → h'.links = h.links

theorem Quiet.refl (h : Heap) : h.Quiet h := ⟨le_rfl, id, fun _ => rfl⟩

theorem Quiet.trans {h'' : Heap} (h₁ : h.Quiet h') (h₂ : h'.Quiet h'') : h.Quiet h'' where
  capacity := h₁.capacity.trans h₂.capacity
  freeListed hf := h₂.freeListed (h₁.freeListed hf)
  links hf := (h₂.links (h₁.freeListed hf)).trans (h₁.links hf)

theorem quiet_setStack {s' : Segment} (hs : h.stack? b = some s) (hp : s'.parent? = s.parent?) :
    h.Quiet (h.setStack b s') where
  capacity := (capacity_setStack h b s').ge
  freeListed hf := hf.set b _
  links _ := by
    rw [links_setStack hs, hp]
    funext x
    by_cases hx : x = b
    · rw [hx, Links.set_self, links_of_stack? hs]
    · exact Links.set_of_ne hx _

theorem quiet_setCapsule {c c' : Capsule} (hc : h.capsule? b = some c) : h.Quiet (h.set b (.capsule c')) where
  capacity := (capacity_set h b _).ge
  freeListed hf := hf.set b _
  links _ := by
    funext x
    unfold Heap.links
    rw [stack?_setCapsule hc]

section Alloc

variable {o : Object} {path : AllocPath}

theorem quiet_alloc (ha : h.alloc o path = .ok (b, h')) (ho : ∀ s, o ≠ .stack s) : h.Quiet h' where
  capacity := capacity_alloc ha
  freeListed hf := hf.alloc ha
  links hf := by
    rcases alloc_cell? hf ha with ⟨hnone, g, hcell⟩ | ⟨-, hcell⟩
    · funext x
      unfold Heap.links stack? get?
      rw [hcell]
      by_cases hx : x = b
      · cases o <;> simp_all
      · simp [hx]
    · exact links_of_cell? hcell

/-- **A new stack**, unless there are more cells than identifiers. -/
theorem links_alloc_stack (hf : h.FreeListed) (ha : h.alloc (.stack s) path = .ok (b, h')) :
    (h.links b = none ∧ h'.links = h.links.set b s.parent? ∧ h'.stack? b = some s) ∨
      (2 ^ 32 < h'.capacity ∧ h'.links = h.links) := by
  rcases alloc_cell? hf ha with ⟨hnone, g, hcell⟩ | ⟨hcap, hcell⟩
  · have hb : h'.cell? b = some ⟨g, .stack s⟩ := by rw [hcell, if_pos rfl]
    refine .inl ⟨by simp [Heap.links, stack?, get?, hnone], ?_, stack?_of_cell? hb⟩
    funext x
    unfold Links.set
    split
    · next hx => rw [hx, links_of_stack? (stack?_of_cell? hb)]
    · next hx =>
      unfold Heap.links stack? get?
      rw [hcell, if_neg hx]
  · exact .inr ⟨hcap, links_of_cell? hcell⟩

end Alloc

end Heap

end FiberStacks
