import FiberStacks.Proofs.Chains.Copy
import FiberStacks.Proofs.Outcome

/-!
# Clones cell by cell

What copying the stacks of a chain does to the cells of a heap: the copies are new blocks, each is the copy of its
stack but for the parent link, which names the next copy, and no other cell changes.

* `Segment.copyTo` — the copy of a segment, linked to another one;
* `Copies` — the heap in the middle of a copy, and at its end;
* `copyStacks_copies` — the induction over the stacks still to copy;
* `cloneChain_cells` — **a clone**, or the same cells as before.
-/

namespace FiberStacks

/-- A copy of a segment, linked to the next copy if there is one. -/
def Segment.copyTo (s : Segment) : Option BlockId → Segment
  | none => s.deepCopy
  | some p => s.deepCopy.setParent (some p)

namespace Segment

@[simp] theorem size_copyTo (s : Segment) (p : Option BlockId) : (s.copyTo p).size = s.size := by
  cases p <;> rfl

@[simp] theorem owner_copyTo (s : Segment) (p : Option BlockId) : (s.copyTo p).owner = none := by
  cases p <;> rfl

theorem copyTo_fields (s : Segment) (p : Option BlockId) :
    (s.copyTo p).slots = s.slots ∧ (s.copyTo p).used = s.used ∧ (s.copyTo p).handlers = s.handlers := by
  cases p <;> exact ⟨rfl, rfl, rfl⟩

theorem parent?_copyTo (s : Segment) (p : Option BlockId) : (s.copyTo p).parent? = p.or s.parent? := by
  cases p
  · rfl
  · exact parent?_setParent ..

end Segment

namespace Heap

variable {h h₁ h₂ h₃ h' : Heap} {done rest copies : List BlockId} {c source : BlockId} {s : Segment}

/-- **The first stacks of a chain are copied**, each to the place of the same number; the last copy keeps the parent
link of its stack. -/
structure Copies (h h' : Heap) (done copies : List BlockId) : Prop where
  freeListed : h'.FreeListed
  length : copies.length = done.length
  nodup : copies.Nodup
  fresh : ∀ c ∈ copies, h.cell? c = none
  others : ∀ x ∉ copies, h'.cell? x = h.cell? x
  cell : ∀ i x s c, done[i]? = some x → h.stack? x = some s → copies[i]? = some c →
    h'.cell? c = some ⟨birth .normal s.size, .stack (s.copyTo copies[i + 1]?)⟩

namespace Copies

theorem start (hf : h.FreeListed) : Copies h h [] [] where
  freeListed := hf
  length := rfl
  nodup := List.nodup_nil
  fresh := by simp
  others _ _ := rfl
  cell := by simp

theorem stack?_source (hc : Copies h h₁ done copies) (hs : h.stack? source = some s) : h₁.stack? source = some s := by
  obtain ⟨g, hcell⟩ := cell?_of_stack? hs
  have hmem : source ∉ copies := fun hmem => by simp [hc.fresh source hmem] at hcell
  exact stack?_of_cell? ((hc.others source hmem).trans hcell)

theorem cell?_discardAll (hc : Copies h h₁ done copies) (x : BlockId) :
    (h₁.discardAll copies).cell? x = h.cell? x := by
  rw [(discardAll_spec copies hc.freeListed).2.2]
  split
  · next hmem => exact (hc.fresh x hmem).symm
  · next hmem => exact hc.others x hmem

theorem cell_last (hc : Copies h h₁ done copies) {last x : BlockId} (hlast : copies.getLast? = some last)
    (hx : done.getLast? = some x) (hs : h.stack? x = some s) :
    h₁.cell? last = some ⟨birth .normal s.size, .stack s.deepCopy⟩ := by
  rw [List.getLast?_eq_getElem?] at hlast hx
  have hlt := (List.getElem?_eq_some_iff.1 hlast).1
  rw [hc.cell _ x s last (hc.length ▸ hx) hs hlast, List.getElem?_eq_none (by omega)]
  rfl

theorem notMem_of_cell? (hc : Copies h h₁ done copies) (hlive : ∀ x ∈ done, (h.stack? x).isSome)
    (hnone : h₁.cell? c = none) : c ∉ copies := by
  intro hmem
  obtain ⟨i, hi⟩ := List.getElem?_of_mem hmem
  have hlt : i < done.length := hc.length ▸ (List.getElem?_eq_some_iff.1 hi).1
  obtain ⟨s, hs⟩ := Option.isSome_iff_exists.1 (hlive _ (List.getElem_mem hlt))
  simp [hc.cell i _ s c (List.getElem?_eq_getElem hlt) hs hi] at hnone

/-- **One more stack is copied**, and the copy made last is linked to its copy. -/
theorem next (hc : Copies h h₁ done copies) (hlive : ∀ x ∈ done, (h.stack? x).isSome) (hs : h.stack? source = some s)
    (hnew : h₁.cell? c = none) (hf : h₂.FreeListed)
    (hself : h₂.cell? c = some ⟨birth .normal s.size, .stack s.deepCopy⟩)
    (hlast' : ∀ last x t, copies.getLast? = some last → done.getLast? = some x → h.stack? x = some t →
      h₂.cell? last = some ⟨birth .normal t.size, .stack (t.copyTo (some c))⟩)
    (hother : ∀ x, x ≠ c → copies.getLast? ≠ some x → h₂.cell? x = h₁.cell? x) :
    Copies h h₂ (done ++ [source]) (copies ++ [c]) where
  freeListed := hf
  length := by simp [hc.length]
  nodup := by
    refine List.nodup_append.2 ⟨hc.nodup, by simp, fun a ha b hb he => ?_⟩
    exact hc.notMem_of_cell? hlive hnew (List.mem_singleton.1 hb ▸ he ▸ ha)
  fresh x hx := by
    rcases List.mem_append.1 hx with hx | hx
    · exact hc.fresh x hx
    · obtain rfl := List.mem_singleton.1 hx
      exact (hc.others x (hc.notMem_of_cell? hlive hnew)).symm.trans hnew
  others x hx := by
    rw [List.mem_append, List.mem_singleton, not_or] at hx
    exact (hother x hx.2 fun hlast => hx.1 (List.mem_of_getLast? hlast)).trans (hc.others x hx.1)
  cell i x t d hx ht hd := by
    have hlen := hc.length
    rcases Nat.lt_trichotomy i done.length with hlt | rfl | hgt
    · rw [List.getElem?_append_left hlt] at hx
      rw [List.getElem?_append_left (hlen ▸ hlt)] at hd
      by_cases hi : i + 1 = copies.length
      · -- the copy made last
        have hlast : copies.getLast? = some d := by rw [List.getLast?_eq_getElem?, ← hi]; exact hd
        have hsource : done.getLast? = some x := by rw [List.getLast?_eq_getElem?, ← hlen, ← hi]; exact hx
        rw [hi, List.getElem?_concat_length]
        exact hlast' d x t hlast hsource ht
      · have hlt' : i + 1 < copies.length := by omega
        have hold := hc.cell i x t d hx ht hd
        rw [List.getElem?_append_left hlt', ← hold]
        refine hother d (fun he => ?_) fun hlast => hi ?_
        · simp [← he, hold] at hnew
        · rw [List.getLast?_eq_getElem?] at hlast
          have := (List.getElem?_inj (by omega) hc.nodup).1 (hd.trans hlast.symm)
          omega
    · rw [List.getElem?_concat_length] at hx
      rw [← hlen, List.getElem?_concat_length] at hd
      obtain rfl := Option.some.inj hx
      obtain rfl := Option.some.inj hd
      rw [Option.some.inj (hs.symm.trans ht)] at hself
      rw [hself, List.getElem?_eq_none (by simp [hlen])]
      rfl
    · rw [List.getElem?_eq_none (by simp; omega)] at hx
      cases hx

/-- **One more stack is copied** by the heap, which links the copy made last to it. -/
theorem step (hc : Copies h h₁ done copies) (hlive : ∀ x ∈ done, (h.stack? x).isSome)
    (hs : h.stack? source = some s) (ha : h₁.alloc (.stack s.deepCopy) .normal = .ok (c, h₂))
    (hcap : h₂.capacity ≤ 2 ^ 32) (hlink : (copies = [] ∧ h₃ = h₂) ∨
      ∃ last, copies.getLast? = some last ∧ h₂.relink last (some c) = .ok h₃) :
    Copies h h₃ (done ++ [source]) (copies ++ [c]) := by
  have hf₂ := hc.freeListed.alloc ha
  rcases alloc_cell?_birth hc.freeListed ha with ⟨hnew, hcell⟩ | ⟨hover, -⟩
  · have hself : h₂.cell? c = some ⟨birth .normal s.size, .stack s.deepCopy⟩ := by rw [hcell, if_pos rfl]; rfl
    have hother : ∀ x, x ≠ c → h₂.cell? x = h₁.cell? x := fun x hx => by rw [hcell, if_neg hx]
    rcases hlink with ⟨rfl, rfl⟩ | ⟨last, hlast, hrel⟩
    · exact hc.next hlive hs hnew hf₂ hself (by simp) fun x hx _ => hother x hx
    · obtain ⟨y, hy, rfl⟩ := relink_eq_ok hrel
      obtain ⟨g, hy⟩ := cell?_of_stack? hy
      have hmem := List.mem_of_getLast? hlast
      have hne : c ≠ last := fun he => hc.notMem_of_cell? hlive hnew (he ▸ hmem)
      refine hc.next hlive hs hnew (freeListed_relink hf₂ hrel) ?_ (fun last' x t hlast' hx ht => ?_)
        fun x hxc hxl => ?_
      · rw [cell?_setStack hy, if_neg hne, hself]
      · obtain rfl := Option.some.inj (hlast.symm.trans hlast')
        have hold := hc.cell_last hlast hx ht
        rw [← hother last hne.symm, hy] at hold
        obtain ⟨rfl, hobj⟩ := Cell.mk.inj (Option.some.inj hold)
        rw [cell?_setStack hy, if_pos rfl, Object.stack.inj hobj]
        rfl
      · have hxl : x ≠ last := fun he => hxl (he ▸ hlast)
        rw [cell?_setStack hy, if_neg hxl, hother x hxc]
  · omega

end Copies

/-- **The copy of a chain of live stacks**: it is finished, or the cells are as they were. -/
theorem copyStacks_copies {r : Except Failure (List BlockId)} : ∀ {rest done copies : List BlockId} {h₁ : Heap},
    Copies h h₁ done copies → (∀ x ∈ done ++ rest, (h.stack? x).isSome) → h₁.copyStacks rest copies = .ok (r, h') →
    h'.capacity ≤ 2 ^ 32 →
    match r with
    | .ok all => Copies h h' (done ++ rest) all
    | .error _ => h'.FreeListed ∧ ∀ x, h'.cell? x = h.cell? x := by
  intro rest
  induction rest with
  | nil =>
    intro done copies h₁ hc _ hr _
    obtain ⟨rfl, rfl⟩ := Prod.mk.inj (Except.ok.inj hr)
    rwa [List.append_nil]
  | cons source rest ih =>
    intro done copies h₁ hc hlive hr hcap
    obtain ⟨s, hs₁, ⟨e, rfl, rfl⟩ | ⟨c, h₂, h₃, ha, hlink, hr⟩⟩ := copyStacks_cons hr
    · exact ⟨(discardAll_spec copies hc.freeListed).1, hc.cell?_discardAll⟩
    · obtain ⟨s', hs⟩ := Option.isSome_iff_exists.1 (hlive source (by simp))
      obtain rfl := Option.some.inj (hs₁.symm.trans (hc.stack?_source hs))
      have hdone : ∀ x ∈ done, (h.stack? x).isSome := fun x hx => hlive x (List.mem_append_left _ hx)
      have hcap₂ : h₂.capacity ≤ h'.capacity := by
        rcases hlink with ⟨-, rfl⟩ | ⟨last, -, hrel⟩
        · exact (freeListed_copyStacks (hc.freeListed.alloc ha) hr).2
        · have hf₃ := freeListed_relink (hc.freeListed.alloc ha) hrel
          exact (capacity_relink hrel).ge.trans (freeListed_copyStacks hf₃ hr).2
      have hlive' : ∀ x ∈ done ++ [source] ++ rest, (h.stack? x).isSome := by simpa using hlive
      simpa using ih (hc.step hdone hs ha (hcap₂.trans hcap) hlink) hlive' hr hcap

/-- **A clone**: the stacks of a chain are copied and a new capsule holds the first copy. -/
structure Clone (h h' : Heap) (k k' : BlockId) (sources copies : List BlockId) (h₁ : Heap) : Prop where
  chain : ∃ head, h.fullHead k = .ok head ∧ h.chain head = .ok sources ∧
    ∀ x, h'.cell? x =
      if x = k' then some ⟨birth .normal Capsule.size, .capsule (.full (copies.headD head))⟩ else h₁.cell? x
  copies : Copies h h₁ sources copies
  fresh : h₁.cell? k' = none
  freeListed : h'.FreeListed

/-- **Cloning a capsule** succeeds, or leaves the cells as they were. -/
theorem cloneChain_cells {r : Except Failure BlockId} {k : BlockId} (hf : h.FreeListed)
    (hr : h.cloneChain k = .ok (r, h')) (hcap : h'.capacity ≤ 2 ^ 32) :
    match r with
    | .ok k' => ∃ sources copies h₁, Clone h h' k k' sources copies h₁
    | .error _ => h'.FreeListed ∧ ∀ x, h'.cell? x = h.cell? x := by
  unfold cloneChain at hr
  split at hr
  · obtain ⟨rfl, rfl⟩ := Prod.mk.inj (Except.ok.inj hr)
    exact ⟨hf, fun _ => rfl⟩
  · next head hhead =>
    obtain ⟨sources, hsources, hr⟩ := bind_eq_ok_iff.1 hr
    obtain ⟨⟨r₁, h₁⟩, hcopy, hr⟩ := bind_eq_ok_iff.1 hr
    have hlive : ∀ x ∈ [] ++ sources, (h.stack? x).isSome := isSome_stack?_of_isChain (chain_eq_ok_iff.1 hsources)
    have hcopies := fun hcap => copyStacks_copies (.start hf) hlive hcopy hcap
    cases r₁ with
    | error e =>
      obtain ⟨rfl, rfl⟩ := Prod.mk.inj (Except.ok.inj hr)
      exact hcopies hcap
    | ok copies =>
      simp only at hr
      split at hr
      · next k' h₂ ha =>
        obtain ⟨rfl, rfl⟩ := Prod.mk.inj (Except.ok.inj hr)
        have hcopies := hcopies ((capacity_alloc ha).trans hcap)
        rcases alloc_cell?_birth hcopies.freeListed ha with ⟨hnew, hcell⟩ | ⟨hover, -⟩
        · exact ⟨sources, copies, h₁, ⟨head, hhead, hsources, hcell⟩, hcopies, hnew, hcopies.freeListed.alloc ha⟩
        · omega
      · obtain ⟨rfl, rfl⟩ := Prod.mk.inj (Except.ok.inj hr)
        have hfree := discardAll_spec copies (freeListed_copyStacks hf hcopy).1
        have hcopies := hcopies (hfree.2.1 ▸ hcap)
        exact ⟨hfree.1, hcopies.cell?_discardAll⟩

namespace Clone

variable {k k' : BlockId} {sources : List BlockId} {i : Nat}

theorem cell?_of_contains (hc : Clone h h' k k' sources copies h₁) (hb : h.contains b = true) :
    h'.cell? b = h.cell? b := by
  obtain ⟨head, -, -, hcell⟩ := hc.chain
  have hmem : b ∉ copies := fun hmem => by simp [contains, hc.copies.fresh b hmem] at hb
  have hold := hc.copies.others b hmem
  rw [hcell, if_neg, hold]
  rintro rfl
  simp [contains, ← hold, hc.fresh] at hb

/-- **The copies**, and what they are linked to. -/
theorem cell?_copy (hc : Clone h h' k k' sources copies h₁) (hb : sources[i]? = some b) :
    ∃ y c, h.stack? b = some y ∧ copies[i]? = some c ∧ y.parent? = sources[i + 1]? ∧
      h'.cell? c = some ⟨birth .normal y.size, .stack (y.copyTo copies[i + 1]?)⟩ := by
  obtain ⟨head, -, hchain, hcell⟩ := hc.chain
  obtain ⟨y, hy, hparent⟩ := stack?_of_links ((chain_eq_ok_iff.1 hchain).link_getElem? hb)
  have hlt : i < copies.length := hc.copies.length ▸ (List.getElem?_eq_some_iff.1 hb).1
  have hcopy := hc.copies.cell i b y _ hb hy (List.getElem?_eq_getElem hlt)
  refine ⟨y, _, hy, List.getElem?_eq_getElem hlt, hparent, ?_⟩
  rw [hcell, if_neg, hcopy]
  intro he
  have hfresh := hc.fresh
  rw [← he, hcopy] at hfresh
  cases hfresh

theorem parent?_copy (hc : Clone h h' k k' sources copies h₁) {y : Segment} (hparent : y.parent? = sources[i + 1]?) :
    (y.copyTo copies[i + 1]?).parent? = copies[i + 1]? := by
  rw [Segment.parent?_copyTo]
  by_cases hlt : i + 1 < copies.length
  · rw [List.getElem?_eq_getElem hlt]
    rfl
  · have hlen := hc.copies.length
    rw [hparent, List.getElem?_eq_none (Nat.le_of_not_lt hlt), List.getElem?_eq_none (by omega)]
    rfl

end Clone

end Heap

end FiberStacks
