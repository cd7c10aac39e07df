import FiberStacks.Proofs.Chains.Clones
import FiberStacks.Proofs.Heap.Map

/-!
# Clones within a budget

When a captured chain can be copied at all.  In a heap with a budget the copies of its stacks and the new capsule are
made if their words are left, and otherwise nothing of them stays.

* `words` — the words of the stacks of a chain;
* `Paid` — the heap in the middle of a copy, with what the copies cost;
* `copyStacks_paid` — the induction over the stacks still to copy;
* `Replica` — what a clone is, seen from the original chain;
* `cloneChain_replica` — **a chain is cloned exactly if there is room for it**, and clones share no stack;
* `cloneChain_error` — **a clone refused leaves the heap as it was**.
-/

namespace FiberStacks

theorem Links.isChain_of_getElem? {L : Links} {l : List BlockId} (hl : ∀ i x, l[i]? = some x → L x = some l[i + 1]?) :
    ∀ b, l.head? = some b → L.IsChain b l := by
  induction l with
  | nil =>
    intro b hb
    cases hb
  | cons a l ih =>
    intro b hb
    obtain rfl := Option.some.inj hb
    have hlink := hl 0 a rfl
    cases l with
    | nil => exact .last hlink
    | cons p l =>
      apply IsChain.cons hlink
      apply ih _ p rfl
      intro i x hx
      exact hl (i + 1) x hx

namespace Heap

variable {h h₁ h₂ h' : Heap} {k head source c : BlockId} {s : Segment} {l done rest copies : List BlockId}

/-! ### Budgets -/

theorem get?_of_stack? (hs : h.stack? source = some s) : h.get? source = some (.stack s) := by
  obtain ⟨g, hc⟩ := cell?_of_stack? hs
  rw [get?, hc]
  rfl

theorem Budgeted.setStack {s' : Segment} (hb : h.Budgeted) (hs : h.stack? source = some s) (hsize : s'.size = s.size) :
    (h.setStack source s').Budgeted := by
  apply hb.set (get?_of_stack? hs)
  exact hsize

theorem Budgeted.relink {p : Option BlockId} (hb : h.Budgeted) (hr : h.relink source p = .ok h') :
    h'.Budgeted ∧ h'.liveWords = h.liveWords ∧ h'.maxWords = h.maxWords := by
  obtain ⟨s, hs, rfl⟩ := relink_eq_ok hr
  exact ⟨hb.setStack hs rfl, rfl, rfl⟩

theorem Budgeted.discard (hb : h.Budgeted) (c : BlockId) : (h.discard c).Budgeted := by
  unfold Heap.discard
  cases hf : h.free c with
  | none => exact hb
  | some p => exact hb.free hf

theorem Budgeted.discardAll (copies : List BlockId) (hb : h.Budgeted) : (h.discardAll copies).Budgeted := by
  induction copies generalizing h with
  | nil => exact hb
  | cons c copies ih => exact ih (hb.discard c)

theorem Balanced.liveWords_eq (hb : h.Balanced) (hb' : h'.Balanced) (hcell : ∀ x, h'.cell? x = h.cell? x) :
    h'.liveWords = h.liveWords := by
  rw [hb.words, hb'.words]
  apply total_congr
  intro x
  rw [get?, get?, hcell]

theorem Balanced.size_eq (hb : h.Balanced) (hb' : h'.Balanced) (hcell : ∀ x, h'.cell? x = h.cell? x) :
    h'.size = h.size := by
  rw [size_eq_card hb.capacity_le, size_eq_card hb'.capacity_le, card_blocks, card_blocks]
  apply total_congr
  intro x
  rw [get?, get?, hcell]

/-! ### Words of a chain -/

def words (h : Heap) (l : List BlockId) : Nat := (l.map fun b => ((h.stack? b).map Segment.size).getD 0).sum

theorem words_append (h : Heap) (l l' : List BlockId) : h.words (l ++ l') = h.words l + h.words l' := by
  unfold words
  rw [List.map_append, List.sum_append]

theorem words_singleton (hs : h.stack? source = some s) : h.words [source] = s.size := by
  unfold words
  rw [List.map_singleton, hs]
  exact Nat.add_zero _

theorem words_cons (hs : h.stack? source = some s) : h.words (source :: rest) = s.size + h.words rest := by
  rw [← List.singleton_append, words_append, words_singleton hs]

/-! ### In the middle of a copy -/

/-- **The first stacks of a chain are copied** and their words are charged. -/
structure Paid (h h' : Heap) (done copies : List BlockId) : Prop extends Copies h h' done copies where
  budgeted : h'.Budgeted
  charged : h'.liveWords = h.liveWords + h.words done
  budget : h'.maxWords = h.maxWords

theorem Paid.start (hb : h.Budgeted) : Paid h h [] [] :=
  ⟨.start hb.balanced.toFreeListed, hb, rfl, rfl⟩

theorem Copies.relink_last (hc : Copies h h₁ done copies) (hlive : ∀ x ∈ done, (h.stack? x).isSome)
    (ha : h₁.alloc (.stack s) .normal = .ok (c, h₂)) (hcap : h₂.capacity ≤ 2 ^ 32) {last : BlockId}
    (hlast : copies.getLast? = some last) : ∃ h₃, h₂.relink last (some c) = .ok h₃ := by
  obtain ⟨x, hx⟩ : ∃ x, done.getLast? = some x := by
    apply Option.isSome_iff_exists.1
    apply List.getLast?_isSome.2
    rintro rfl
    obtain rfl := List.length_eq_zero_iff.1 hc.length
    cases hlast
  obtain ⟨t, ht⟩ := Option.isSome_iff_exists.1 (hlive x (List.mem_of_getLast? hx))
  have hold := hc.cell_last hlast hx ht
  rcases alloc_cell?_birth hc.freeListed ha with ⟨hnew, hcell⟩ | ⟨hover, -⟩
  · have hne : last ≠ c := by
      rintro rfl
      rw [hnew] at hold
      cases hold
    have hkept : h₂.cell? last = h₁.cell? last := by rw [hcell, if_neg hne]
    exact ⟨_, relink_of_stack? (stack?_of_cell? (hkept.trans hold)) _⟩
  · omega

/-- **One more stack is copied**, if there is room for it. -/
theorem Paid.step (hp : Paid h h₁ done copies) (hlive : ∀ x ∈ done, (h.stack? x).isSome)
    (hs : h.stack? source = some s) (ha : h₁.alloc (.stack s.deepCopy) .normal = .ok (c, h₂)) :
    ∃ h₃, (copies = [] ∧ h₃ = h₂ ∨ ∃ last, copies.getLast? = some last ∧ h₂.relink last (some c) = .ok h₃) ∧
      Paid h h₃ (done ++ [source]) (copies ++ [c]) := by
  have hsize : 0 < (Object.stack s.deepCopy).size := Nat.succ_pos _
  have hb₂ : h₂.Budgeted := hp.budgeted.alloc (.inl hsize) ha
  have hcap := hb₂.balanced.capacity_le
  obtain ⟨hlive₂, hmax₂, -⟩ := alloc_words ha
  have hcharged : h₂.liveWords = h.liveWords + h.words (done ++ [source]) := by
    have hdeep : (Object.stack s.deepCopy).size = s.size := rfl
    have hold := hp.charged
    rw [words_append, words_singleton hs]
    omega
  have hbudget := hmax₂.trans hp.budget
  cases hlast : copies.getLast? with
  | none =>
    have hlink : copies = [] ∧ h₂ = h₂ := ⟨List.getLast?_eq_none_iff.1 hlast, rfl⟩
    refine ⟨h₂, .inl hlink, ?_, hb₂, hcharged, hbudget⟩
    exact hp.toCopies.step hlive hs ha hcap (.inl hlink)
  | some last =>
    obtain ⟨h₃, hrel⟩ := hp.toCopies.relink_last hlive ha hcap hlast
    obtain ⟨hb₃, hlive₃, hmax₃⟩ := hb₂.relink hrel
    refine ⟨h₃, .inr ⟨last, rfl, hrel⟩, ?_, hb₃, hlive₃.trans hcharged, hmax₃.trans hbudget⟩
    exact hp.toCopies.step hlive hs ha hcap (.inr ⟨last, hlast, hrel⟩)

theorem Paid.discardAll (hp : Paid h h₁ done copies) :
    (h₁.discardAll copies).Budgeted ∧ ∀ x, (h₁.discardAll copies).cell? x = h.cell? x :=
  ⟨hp.budgeted.discardAll copies, hp.cell?_discardAll⟩

theorem copyStacks_of_alloc {h₃ : Heap} (hs : h₁.stack? source = some s)
    (ha : h₁.alloc (.stack s.deepCopy) .normal = .ok (c, h₂))
    (hlink : copies = [] ∧ h₃ = h₂ ∨ ∃ last, copies.getLast? = some last ∧ h₂.relink last (some c) = .ok h₃) :
    h₁.copyStacks (source :: rest) copies = h₃.copyStacks rest (copies ++ [c]) := by
  rw [copyStacks, stack_eq_ok_iff.2 hs]
  rcases hlink with ⟨rfl, rfl⟩ | ⟨last, hlast, hrel⟩
  · simp only [bind, Except.bind, ha, List.getLast?_nil]
  · simp only [bind, Except.bind, ha, hlast, hrel]

theorem copyStacks_of_error {e : AllocError} (hs : h₁.stack? source = some s)
    (ha : h₁.alloc (.stack s.deepCopy) .normal = .error e) :
    h₁.copyStacks (source :: rest) copies = .ok (.error .outOfMemory, h₁.discardAll copies) := by
  rw [copyStacks, stack_eq_ok_iff.2 hs]
  simp only [bind, Except.bind, ha, AllocError.toFailure]

/-- **The copy of live stacks**: it is finished, or there is no room for it and nothing is left of it. -/
theorem copyStacks_paid : ∀ {rest done copies : List BlockId} {h₁ : Heap}, Paid h h₁ done copies →
    (∀ x ∈ done ++ rest, (h.stack? x).isSome) →
    (∃ all h', h₁.copyStacks rest copies = .ok (.ok all, h') ∧ Paid h h' (done ++ rest) all) ∨
      ∃ h', h₁.copyStacks rest copies = .ok (.error .outOfMemory, h') ∧ h.available < h.words (done ++ rest) ∧
        h'.Budgeted ∧ ∀ x, h'.cell? x = h.cell? x := by
  intro rest
  induction rest with
  | nil =>
    intro done copies h₁ hp _
    left
    rw [List.append_nil]
    exact ⟨copies, h₁, rfl, hp⟩
  | cons source rest ih =>
    intro done copies h₁ hp hlive
    obtain ⟨s, hs⟩ := Option.isSome_iff_exists.1 (hlive source (by simp))
    have hdone : ∀ x ∈ done, (h.stack? x).isSome := fun x hx => hlive x (List.mem_append_left _ hx)
    have hs₁ := hp.stack?_source hs
    cases ha : h₁.alloc (.stack s.deepCopy) .normal with
    | error e =>
      right
      have hroom := (alloc_eq_error_iff.1 ha).1
      refine ⟨_, copyStacks_of_error hs₁ ha, ?_, hp.discardAll⟩
      -- the words charged for the copies made, and those of this one, are too many
      have hdeep : (Object.stack s.deepCopy).size = s.size := rfl
      have hcharged := hp.charged
      have hbudget := hp.budget
      rw [words_append, words_cons hs]
      unfold available at hroom ⊢
      omega
    | ok p =>
      obtain ⟨c, h₂⟩ := p
      obtain ⟨h₃, hlink, hp₃⟩ := hp.step hdone hs ha
      rw [List.append_cons] at hlive ⊢
      rw [copyStacks_of_alloc hs₁ ha hlink]
      exact ih hp₃ hlive

/-! ### Clones -/

theorem fullHead_eq_ok_iff : h.fullHead k = .ok head ↔ h.capsule? k = some (.full head) := by
  unfold fullHead
  cases hk : h.capsule? k with
  | none => simp
  | some c => cases c <;> simp [Capsule.fullHead, Except.mapError]

/-- **A captured chain is cloned**, or there is no room for it and nothing is left of the copies. -/
theorem cloneChain_paid (hb : h.Budgeted) (hk : h.capsule? k = some (.full head)) (hl : h.links.IsChain head l) :
    (∃ k' h' copies h₁, h.cloneChain k = .ok (.ok k', h') ∧ Clone h h' k k' l copies h₁ ∧
        h.words l + Capsule.size ≤ h.available ∧ h'.liveWords = h.liveWords + h.words l + Capsule.size ∧ h'.Budgeted) ∨
      ∃ h', h.cloneChain k = .ok (.error .outOfMemory, h') ∧ h.available < h.words l + Capsule.size ∧
        h'.Budgeted ∧ ∀ x, h'.cell? x = h.cell? x := by
  have hlive : ∀ x ∈ [] ++ l, (h.stack? x).isSome := isSome_stack?_of_isChain hl
  have hhead := fullHead_eq_ok_iff.2 hk
  have hchain := chain_eq_ok_iff.2 hl
  unfold cloneChain
  simp only [hhead, hchain, bind, Except.bind]
  obtain ⟨copies, h₁, hcopy, hp⟩ | ⟨h', hcopy, hroom, hb', hcell⟩ := copyStacks_paid (.start hb) hlive
  · rw [List.nil_append] at hp
    have hcharged := hp.charged
    have hbudget := hp.budget
    simp only [hcopy]
    cases ha : h₁.alloc (.capsule (.full (copies.headD head))) .normal with
    | ok p =>
      left
      obtain ⟨k', h'⟩ := p
      have hfits : 0 < (Object.capsule (.full (copies.headD head))).size := Nat.succ_pos 1
      have hb' : h'.Budgeted := hp.budgeted.alloc (.inl hfits) ha
      obtain ⟨hwords, hmax, -⟩ := alloc_words ha
      have hwithin := hb'.balanced.within
      have hcap := hb'.balanced.capacity_le
      have hsize : (Object.capsule (.full (copies.headD head))).size = Capsule.size := rfl
      rcases alloc_cell?_birth hp.freeListed ha with ⟨hnew, hcell⟩ | ⟨hover, -⟩
      · refine ⟨k', h', copies, h₁, rfl, ?_, ?_, ?_, hb'⟩
        · exact ⟨⟨head, hhead, hchain, hcell⟩, hp.toCopies, hnew, hp.freeListed.alloc ha⟩
        · unfold available
          omega
        · omega
      · omega
    | error e =>
      right
      have hroom := (alloc_eq_error_iff.1 ha).1
      refine ⟨_, rfl, ?_, hp.discardAll⟩
      have hsize : (Object.capsule (.full (copies.headD head))).size = Capsule.size := rfl
      unfold available at hroom ⊢
      omega
  · right
    simp only [hcopy]
    exact ⟨h', rfl, Nat.lt_of_lt_of_le hroom (Nat.le_add_right ..), hb', hcell⟩

/-- **What a clone is**: a full capsule over a chain of new stacks, which are the stacks of the original chain but for
their marks and links; whatever was live before is as it was. -/
structure Replica (h h' : Heap) (k' : BlockId) (l copies : List BlockId) : Prop where
  full : ∃ c, copies.head? = some c ∧ h'.capsule? k' = some (.full c) ∧ h'.chain c = .ok copies
  length : copies.length = l.length
  nodup : (k' :: copies).Nodup
  fresh : ∀ b ∈ k' :: copies, h.contains b = false
  copy : ∀ i b c, l[i]? = some b → copies[i]? = some c → ∃ s t, h.stack? b = some s ∧ h'.stack? c = some t ∧
    t.capacity = s.capacity ∧ t.slots = s.slots ∧ t.used = s.used ∧ t.handlers = s.handlers ∧ t.owner = none ∧
    t.parent? = copies[i + 1]?
  others : ∀ b, h.contains b = true → h'.cell? b = h.cell? b
  charged : h'.liveWords = h.liveWords + h.words l + Capsule.size

namespace Clone

variable {k' : BlockId}

theorem stack?_copy (hc : Clone h h' k k' l copies h₁) {i : Nat} {b : BlockId} (hb : l[i]? = some b) :
    ∃ y c, h.stack? b = some y ∧ copies[i]? = some c ∧ h'.stack? c = some (y.copyTo copies[i + 1]?) ∧
      (y.copyTo copies[i + 1]?).parent? = copies[i + 1]? := by
  obtain ⟨y, c, hy, hcopy, hparent, hcell⟩ := hc.cell?_copy hb
  exact ⟨y, c, hy, hcopy, stack?_of_cell? hcell, hc.parent?_copy hparent⟩

/-- The copies are a chain. -/
theorem isChain (hc : Clone h h' k k' l copies h₁) (hhead : copies.head? = some c) : h'.links.IsChain c copies := by
  apply Links.isChain_of_getElem? _ c hhead
  intro i x hx
  have hlt : i < l.length := hc.copies.length ▸ (List.getElem?_eq_some_iff.1 hx).1
  obtain ⟨y, c', -, hcopy, hstack, hparent⟩ := hc.stack?_copy (List.getElem?_eq_getElem hlt)
  obtain rfl := Option.some.inj (hx.symm.trans hcopy)
  rw [links_of_stack? hstack, hparent]

/-- **The new capsule** holds the first copy. -/
theorem capsule?_clone (hc : Clone h h' k k' l copies h₁) :
    ∃ c, copies.head? = some c ∧ h'.capsule? k' = some (.full c) := by
  obtain ⟨head, -, hchain, hcell⟩ := hc.chain
  have hmem := (chain_eq_ok_iff.1 hchain).mem
  have hpos : 0 < copies.length := hc.copies.length ▸ List.length_pos_of_mem hmem
  obtain ⟨c, copies, rfl⟩ := List.exists_cons_of_length_pos hpos
  refine ⟨c, rfl, ?_⟩
  rw [capsule?, get?, hcell, if_pos rfl]
  rfl

/-- The new capsule is none of the copies. -/
theorem notMem (hc : Clone h h' k k' l copies h₁) : k' ∉ copies := by
  obtain ⟨head, -, hchain, -⟩ := hc.chain
  exact hc.copies.notMem_of_cell? (isSome_stack?_of_isChain (chain_eq_ok_iff.1 hchain)) hc.fresh

theorem contains_fresh (hc : Clone h h' k k' l copies h₁) : ∀ b ∈ k' :: copies, h.contains b = false := by
  intro b hb
  have hnone : h.cell? b = none := by
    rcases List.mem_cons.1 hb with rfl | hb
    · rw [← hc.copies.others b hc.notMem, hc.fresh]
    · exact hc.copies.fresh b hb
  rw [contains, hnone]
  rfl

theorem replica (hc : Clone h h' k k' l copies h₁)
    (hwords : h'.liveWords = h.liveWords + h.words l + Capsule.size) : Replica h h' k' l copies where
  full := by
    obtain ⟨c, hhead, hfull⟩ := hc.capsule?_clone
    exact ⟨c, hhead, hfull, chain_eq_ok_iff.2 (hc.isChain hhead)⟩
  length := hc.copies.length
  nodup := List.nodup_cons.2 ⟨hc.notMem, hc.copies.nodup⟩
  fresh := hc.contains_fresh
  copy := by
    intro i b c hb hcopy
    obtain ⟨y, c', hy, hc', hstack, hparent⟩ := hc.stack?_copy hb
    obtain rfl := Option.some.inj (hcopy.symm.trans hc')
    obtain ⟨hslots, hused, hhandlers⟩ := y.copyTo_fields copies[i + 1]?
    exact ⟨y, _, hy, hstack, congrArg List.length hslots, hslots, hused, hhandlers, Segment.owner_copyTo .., hparent⟩
  others b hb := hc.cell?_of_contains hb
  charged := hwords

end Clone

theorem cloneChain_eq_ok {r : Except Failure BlockId × Heap} (hr : h.cloneChain k = .ok r) :
    (∃ e, h.fullHead k = .error e ∧ r = (.error e, h)) ∨
      ∃ head l, h.capsule? k = some (.full head) ∧ h.links.IsChain head l := by
  unfold cloneChain at hr
  split at hr
  · next e he => exact .inl ⟨e, he, (Except.ok.inj hr).symm⟩
  · next head hhead =>
    obtain ⟨l, hl, -⟩ := bind_eq_ok_iff.1 hr
    exact .inr ⟨head, l, fullHead_eq_ok_iff.1 hhead, chain_eq_ok_iff.1 hl⟩

/-- **A clone that succeeds.** -/
theorem cloneChain_clone {k' : BlockId} (hb : h.Budgeted) (hr : h.cloneChain k = .ok (.ok k', h')) :
    ∃ head l copies h₁, h.capsule? k = some (.full head) ∧ h.links.IsChain head l ∧ Clone h h' k k' l copies h₁ ∧
      h.words l + Capsule.size ≤ h.available ∧ h'.liveWords = h.liveWords + h.words l + Capsule.size ∧
      h'.Budgeted := by
  obtain ⟨e, -, he⟩ | ⟨head, l, hk, hl⟩ := cloneChain_eq_ok hr
  · cases (Prod.mk.inj he).1
  · obtain ⟨k₁, h₁', copies, h₁, hok, hclone⟩ | ⟨h₁', herr, -⟩ := cloneChain_paid hb hk hl
    · obtain ⟨hk', rfl⟩ := Prod.mk.inj (Except.ok.inj (hr.symm.trans hok))
      obtain rfl := Except.ok.inj hk'
      exact ⟨head, l, copies, h₁, hk, hl, hclone⟩
    · cases (Prod.mk.inj (Except.ok.inj (hr.symm.trans herr))).1

/-- **A captured chain is cloned exactly if there is room for it**, and the clone is a replica.  Whatever is cloned
later, as long as the copies are live, shares no stack with them. -/
theorem cloneChain_replica (hb : h.Budgeted) (hk : h.capsule? k = some (.full head)) (hl : h.links.IsChain head l) :
    ((∃ k' h', h.cloneChain k = .ok (.ok k', h')) ↔ h.words l + Capsule.size ≤ h.maxWords - h.liveWords) ∧
      ∀ k' h', h.cloneChain k = .ok (.ok k', h') → ∃ copies, Replica h h' k' l copies ∧
        ∀ (g g' : Heap) (j j' c : BlockId) (others : List BlockId), g.Budgeted →
          (∀ x ∈ copies, g.contains x = true) → g.cloneChain j = .ok (.ok j', g') →
          g'.capsule? j' = some (.full c) → g'.chain c = .ok others → copies.Disjoint others := by
  constructor
  · constructor
    · rintro ⟨k', h', hr⟩
      obtain ⟨head', l', copies, h₁, hk', hl', -, hroom, -⟩ := cloneChain_clone hb hr
      obtain rfl := Capsule.full.inj (Option.some.inj (hk.symm.trans hk'))
      obtain rfl := hl.unique hl'
      exact hroom
    · intro hroom
      obtain ⟨k', h', copies, h₁, hr, -⟩ | ⟨h', -, hless, -⟩ := cloneChain_paid hb hk hl
      · exact ⟨k', h', hr⟩
      · exact absurd hroom (Nat.not_le_of_lt hless)
  · intro k' h' hr
    obtain ⟨head', l', copies, h₁, hk', hl', hclone, -, hwords, -⟩ := cloneChain_clone hb hr
    obtain rfl := Capsule.full.inj (Option.some.inj (hk.symm.trans hk'))
    obtain rfl := hl.unique hl'
    refine ⟨copies, hclone.replica hwords, ?_⟩
    intro g g' j j' c others hg hlive hj hfull hchain x hx hx'
    obtain ⟨_, _, copies', g₁, _, _, hclone', _⟩ := cloneChain_clone hg hj
    obtain ⟨c', hhead, hfull'⟩ := hclone'.capsule?_clone
    obtain rfl := Capsule.full.inj (Option.some.inj (hfull.symm.trans hfull'))
    obtain rfl := (hclone'.isChain hhead).unique (chain_eq_ok_iff.1 hchain)
    have hdead := hclone'.contains_fresh x (List.mem_cons_of_mem _ hx')
    rw [hlive x hx] at hdead
    cases hdead

/-- A stack on top of another one, captured. -/
def capturedPair (maxWords : Nat) : Heap :=
  (empty maxWords 100).run [.alloc (.stack (.blank 1 .zero)) .normal,
    .alloc (.stack ((Segment.blank 1 .zero).setParent (some (.ofIndex 0)))) .normal,
    .alloc (.capsule (.full (.ofIndex 1))) .normal]

theorem budgeted_capturedPair {maxWords : Nat} (hm : maxWords < 2 ^ 32) : (capturedPair maxWords).Budgeted :=
  ((Budgeted.empty 100 hm).run (by decide)).1

/-- The clone takes sixteen words. -/
theorem cloneChain_replica_tight :
    (∃ k' h' copies, (capturedPair 32).cloneChain (.ofIndex 2) = .ok (.ok k', h') ∧
        Replica (capturedPair 32) h' k' [.ofIndex 1, .ofIndex 0] copies ∧ h'.liveWords = 32) ∧
      ¬ ∃ k' h', (capturedPair 31).cloneChain (.ofIndex 2) = .ok (.ok k', h') := by
  have hk : (capturedPair 32).capsule? (.ofIndex 2) = some (.full (.ofIndex 1)) := by decide
  have hl : (capturedPair 32).links.IsChain (.ofIndex 1) [.ofIndex 1, .ofIndex 0] := chain_eq_ok_iff.1 (by decide)
  have hk' : (capturedPair 31).capsule? (.ofIndex 2) = some (.full (.ofIndex 1)) := by decide
  have hl' : (capturedPair 31).links.IsChain (.ofIndex 1) [.ofIndex 1, .ofIndex 0] := chain_eq_ok_iff.1 (by decide)
  obtain ⟨hiff, hreplica⟩ := cloneChain_replica (budgeted_capturedPair (by decide)) hk hl
  obtain ⟨hiff', -⟩ := cloneChain_replica (budgeted_capturedPair (by decide)) hk' hl'
  constructor
  · obtain ⟨k', h', hr⟩ := hiff.2 (by decide)
    obtain ⟨copies, hrep, -⟩ := hreplica k' h' hr
    exact ⟨k', h', copies, hr, hrep, hrep.charged⟩
  · rw [hiff']
    decide

/-- **A clone refused leaves the heap as it was.**  Every block is live as before, and no other one; it ran out of
memory, or there was no captured chain and nothing at all has changed. -/
theorem cloneChain_error {e : Failure} (hb : h.Budgeted) (hr : h.cloneChain k = .ok (.error e, h')) :
    (∀ b, h'.cell? b = h.cell? b) ∧ h'.liveWords = h.liveWords ∧ h'.size = h.size ∧
      (∀ m, e = .invalidArgument m → h' = h) ∧
      match h.capsule? k with
      | some (.full _) => e = .outOfMemory
      | some .empty => e = CapsuleMisuse.empty.toFailure
      | some .taken => e = CapsuleMisuse.alreadyTaken.toFailure
      | none => e = CapsuleMisuse.notCapsule.toFailure := by
  obtain ⟨e', he', hsame⟩ | ⟨head, l, hk, hl⟩ := cloneChain_eq_ok hr
  · obtain ⟨hee, rfl⟩ := Prod.mk.inj hsame
    obtain rfl := Except.error.inj hee
    refine ⟨fun _ => rfl, rfl, rfl, fun _ _ => rfl, ?_⟩
    unfold fullHead at he'
    cases hk : h'.capsule? k with
    | none =>
      rw [hk] at he'
      exact (Except.error.inj he').symm
    | some c =>
      rw [hk] at he'
      cases c with
      | full b => cases he'
      | empty => exact (Except.error.inj he').symm
      | taken => exact (Except.error.inj he').symm
  · obtain ⟨k₁, h₁', copies, h₁, hok, -⟩ | ⟨h₁', herr, -, hb', hcell⟩ := cloneChain_paid hb hk hl
    · cases (Prod.mk.inj (Except.ok.inj (hr.symm.trans hok))).1
    · obtain ⟨hee, rfl⟩ := Prod.mk.inj (Except.ok.inj (hr.symm.trans herr))
      obtain rfl := Except.error.inj hee
      refine ⟨hcell, hb.balanced.liveWords_eq hb'.balanced hcell, hb.balanced.size_eq hb'.balanced hcell, ?_, ?_⟩
      · intro m hm
        cases hm
      · rw [hk]

/-- The budget runs out at the second stack. -/
theorem cloneChain_error_second :
    ∃ h', (capturedPair 24).cloneChain (.ofIndex 2) = .ok (.error .outOfMemory, h') ∧
      (∀ b, h'.cell? b = (capturedPair 24).cell? b) ∧ h'.liveWords = 16 ∧ h'.size = 3 ∧ h'.capacity = 4 := by
  have hb : (capturedPair 24).Budgeted := budgeted_capturedPair (by decide)
  have hr : ∃ h', (capturedPair 24).cloneChain (.ofIndex 2) = .ok (.error .outOfMemory, h') ∧ h'.capacity = 4 :=
    ⟨_, rfl, by decide⟩
  obtain ⟨h', hr, hcap⟩ := hr
  obtain ⟨hcell, hwords, hsize, -⟩ := cloneChain_error hb hr
  exact ⟨h', hr, hcell, hwords, hsize, hcap⟩

end Heap

end FiberStacks
