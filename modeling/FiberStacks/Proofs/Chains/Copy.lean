import FiberStacks.Proofs.Chains.Stacks

/-!
# Chains copied

What copying a captured chain does to the links of a heap.

* `Copying` — the heap in the middle of a copy: the stacks of before with their links, and the copies made so far,
  the last of them still linked to the rest of the chain copied;
* `copyStacks_spec` — the induction over the stacks still to copy;
* `cloneChain_spec` — **a clone**: the stacks of before with their links, and a chain of new stacks.
-/

namespace FiberStacks.Heap

variable {h h' : Heap} {b k : BlockId} {l : List BlockId}

theorem relink_eq_ok {p : Option BlockId} (hr : h.relink b p = .ok h') :
    ∃ s, h.stack? b = some s ∧ h' = h.setStack b (s.setParent p) := by
  unfold relink at hr
  cases hs : h.stack? b with
  | none => simp [stack, hs, Except.map] at hr
  | some s =>
    simp only [stack, hs, Except.map, Except.ok.injEq] at hr
    exact ⟨s, rfl, hr.symm⟩

theorem relink_of_stack? {s : Segment} (hs : h.stack? b = some s) (p : Option BlockId) :
    h.relink b p = .ok (h.setStack b (s.setParent p)) := by
  unfold relink
  rw [stack_eq_ok_iff.2 hs]
  rfl

theorem links_relink {p : Option BlockId} (hr : h.relink b p = .ok h') : h'.links = h.links.set b p := by
  obtain ⟨s, hs, rfl⟩ := relink_eq_ok hr
  rw [links_setStack hs, Segment.parent?_setParent]

theorem freeListed_relink {p : Option BlockId} (hf : h.FreeListed) (hr : h.relink b p = .ok h') : h'.FreeListed := by
  obtain ⟨s, hs, rfl⟩ := relink_eq_ok hr
  exact hf.set b _

theorem capacity_relink {p : Option BlockId} (hr : h.relink b p = .ok h') : h'.capacity = h.capacity := by
  obtain ⟨s, hs, rfl⟩ := relink_eq_ok hr
  exact capacity_setStack ..

/-- **The last stack of a chain can be linked to another one**; all links lead to an end then exactly if the chain of
the other one is apart. -/
theorem relink_last_spec (hf : h.FreeListed) (hL : h.links.Ending) (hc : h.links.IsChain b l)
    (p : BlockId) : ∃ last h', l.getLast? = some last ∧ h.relink last (some p) = .ok h' ∧ h'.FreeListed ∧
      (h'.links.Ending ↔ ∃ lp, h.links.IsChain p lp ∧ lp.Disjoint l) := by
  obtain ⟨last, hlast⟩ : ∃ last, l.getLast? = some last :=
    Option.isSome_iff_exists.1 (List.getLast?_isSome.2 (List.ne_nil_of_mem hc.mem))
  obtain ⟨q, hq⟩ := Option.isSome_iff_exists.1 (hc.live last (List.mem_of_getLast? hlast))
  obtain ⟨x, hx, -⟩ := stack?_of_links hq
  have hr := relink_of_stack? hx (some p)
  refine ⟨last, _, hlast, hr, freeListed_relink hf hr, ?_⟩
  rw [links_relink hr]
  exact Links.ending_hang_iff hL hc hlast

/-! ### Blocks thrown away -/

theorem capacity_discard (h : Heap) (b : BlockId) : (h.discard b).capacity = h.capacity := by
  unfold discard
  cases hf : h.free b with
  | none => rfl
  | some r =>
    obtain ⟨o, -, hr⟩ := Option.map_eq_some_iff.1 hf
    rw [← hr]
    simp [capacity]

theorem FreeListed.discard (hf : h.FreeListed) (b : BlockId) : (h.discard b).FreeListed := by
  unfold Heap.discard
  cases hr : h.free b with
  | none => exact hf
  | some r => exact hf.free hr

theorem cell?_discard (h : Heap) (b x : BlockId) : (h.discard b).cell? x = if x = b then none else h.cell? x := by
  unfold discard
  cases hr : h.free b with
  | none =>
    have hb : h.cell? b = none := by simpa [free, get?] using hr
    by_cases hx : x = b <;> simp [hx, hb]
  | some r => exact cell?_free hr x

theorem discardAll_spec (copies : List BlockId) : ∀ {h : Heap}, h.FreeListed →
    (h.discardAll copies).FreeListed ∧ (h.discardAll copies).capacity = h.capacity ∧
      ∀ x, (h.discardAll copies).cell? x = if x ∈ copies then none else h.cell? x := by
  induction copies with
  | nil => intro h hf; exact ⟨hf, rfl, by simp [discardAll]⟩
  | cons b rest ih =>
    intro h hf
    obtain ⟨h1, h2, h3⟩ := ih (hf.discard b)
    refine ⟨h1, h2.trans (capacity_discard h b), fun x => (h3 x).trans ?_⟩
    rw [cell?_discard]
    by_cases hx : x = b <;> simp [hx]

/-! ### Copies -/

/-- **In the middle of a copy** of the chain of which `rest` is still to be copied, with the links `L` of before. -/
structure Copying (L : Links) (h : Heap) (copies rest : List BlockId) : Prop where
  freeListed : h.FreeListed
  /-- The stacks of before have their links of before. -/
  old : ∀ x, (L x).isSome → h.links x = L x
  /-- All other stacks are copies. -/
  new : ∀ x, L x = none → (h.links x).isSome → x ∈ copies
  fresh : ∀ c ∈ copies, L c = none
  /-- What is still to be copied is a chain of before. -/
  source : ∀ x, rest.head? = some x → L.IsChain x rest
  /-- The copies lead to it. -/
  chain : ∀ c, copies.head? = some c → h.links.IsChain c (copies ++ rest)

namespace Copying

variable {L : Links} {copies rest : List BlockId}

theorem start (hf : h.FreeListed) (hc : h.links.IsChain b l) : Copying h.links h [] l where
  freeListed := hf
  old := fun _ _ => rfl
  new := by simp_all
  fresh := by simp
  source := by
    intro x hx
    obtain rfl := Option.some.inj (hc.head?.symm.trans hx)
    exact hc
  chain := by simp

theorem of_quiet (hc : Copying L h copies rest) (hq : h.Quiet h') : Copying L h' copies rest :=
  have hl := hq.links hc.freeListed
  ⟨hq.freeListed hc.freeListed, hl ▸ hc.old, hl ▸ hc.new, hc.fresh, hc.source, hl ▸ hc.chain⟩

/-- The links of before lead to an end, and so do those of the copies. -/
theorem ending (hc : Copying L h copies rest) (hL : L.Ending) : h.links.Ending := by
  intro x hx
  cases hLx : L x with
  | some p =>
    obtain ⟨l, hl⟩ := hL x (by simp [hLx])
    exact ⟨l, hl.congr fun y hy => hc.old y (hl.live y hy)⟩
  | none =>
    have hmem := hc.new x hLx hx
    obtain ⟨c, cs, rfl⟩ := List.exists_cons_of_ne_nil (List.ne_nil_of_mem hmem)
    obtain ⟨as, bs, -, hx⟩ := (hc.chain c rfl).of_mem (List.mem_append_left rest hmem)
    exact ⟨bs, hx⟩

/-- A chain of before is still one. -/
theorem isChain (hc : Copying L h copies rest) (hl : L.IsChain b l) : h.links.IsChain b l :=
  hl.congr fun y hy => hc.old y (hl.live y hy)

theorem links_discardAll (hc : Copying L h copies rest) : (h.discardAll copies).links = L := by
  obtain ⟨-, -, hcell⟩ := discardAll_spec copies hc.freeListed
  funext x
  have hx : (h.discardAll copies).links x = if x ∈ copies then none else h.links x := by
    unfold Heap.links stack? get?
    rw [hcell]
    by_cases hx : x ∈ copies <;> simp [hx]
  rw [hx]
  split
  · next hmem => exact (hc.fresh x hmem).symm
  · next hmem =>
    cases hLx : L x with
    | some p => exact (hc.old x (by simp [hLx])).trans hLx
    | none =>
      cases hl : h.links x with
      | none => rfl
      | some p => exact absurd (hc.new x hLx (by simp [hl])) hmem

theorem fresh_of_links (hc : Copying L h copies rest) (hb : h.links b = none) : L b = none := by
  by_contra hne
  have hlive := Option.isSome_iff_ne_none.2 hne
  rw [← hc.old b hlive, hb] at hlive
  cases hlive

section Step

variable {source c : BlockId} {s : Segment}

theorem isChain_copy (hc : Copying L h copies (source :: rest)) (hs : h.stack? source = some s)
    (hnew : h.links c = none) : (h.links.set c s.parent?).IsChain c (c :: rest) := by
  have hchain := hc.source source rfl
  have hlink := links_of_stack? hs
  have hfresh := hc.fresh_of_links hnew
  cases hchain with
  | last hb =>
    rw [hc.old _ (by simp [hb]), hb] at hlink
    exact .last (by rw [Links.set_self, Option.some.inj hlink])
  | @cons _ p _ hb hp =>
    rw [hc.old _ (by simp [hb]), hb] at hlink
    have hmem : c ∉ rest := fun hmem => by simpa [hfresh] using hp.live c hmem
    refine .cons (p := p) (by rw [Links.set_self, Option.some.inj hlink]) ?_
    exact (hc.isChain hp).set_of_notMem hmem _

theorem source_tail (hc : Copying L h copies (source :: rest)) (x : BlockId) (hx : rest.head? = some x) :
    L.IsChain x rest := by
  have hchain := hc.source source rfl
  cases hchain with
  | last _ => cases hx
  | cons _ hp =>
    obtain rfl := Option.some.inj (hp.head?.symm.trans hx)
    exact hp

theorem first {h₁ : Heap} (hc : Copying L h [] (source :: rest)) (hs : h.stack? source = some s)
    (hf : h₁.FreeListed) (hnew : h.links c = none) (hl : h₁.links = h.links.set c s.parent?) :
    Copying L h₁ [c] rest where
  freeListed := hf
  old x hx := by
    rw [hl, Links.set_of_ne, hc.old x hx]
    rintro rfl
    simp [hc.fresh_of_links hnew] at hx
  new x hx hx' := by
    by_cases hxc : x = c
    · simp [hxc]
    · rw [hl, Links.set_of_ne hxc] at hx'
      exact absurd (hc.new x hx hx') (by simp)
  fresh x hx := by
    obtain rfl := List.mem_singleton.1 hx
    exact hc.fresh_of_links hnew
  source := hc.source_tail
  chain x hx := by
    obtain rfl := Option.some.inj hx
    rw [hl]
    exact hc.isChain_copy hs hnew

/-- A further copy, with the one before it linked to it. -/
theorem next {h₁ : Heap} {last : BlockId} (hc : Copying L h copies (source :: rest)) (hs : h.stack? source = some s)
    (hlast : copies.getLast? = some last) (hf : h₁.FreeListed) (hnew : h.links c = none)
    (hl : h₁.links = (h.links.set c s.parent?).set last (some c)) : Copying L h₁ (copies ++ [c]) rest := by
  have hcfresh := hc.fresh_of_links hnew
  obtain ⟨as, rfl⟩ : ∃ as, copies = as ++ [last] := by
    obtain ⟨as, has⟩ := List.getLast?_eq_some_iff.1 hlast
    exact ⟨as, has⟩
  have hlfresh := hc.fresh last (by simp)
  obtain ⟨x₀, hx₀⟩ : ∃ x₀, (as ++ [last]).head? = some x₀ := by
    cases as <;> simp
  have hchain := hc.chain x₀ hx₀
  refine ⟨hf, fun x hx => ?_, fun x hx hx' => ?_, fun x hx => ?_, hc.source_tail, fun x hx => ?_⟩
  · have hxl : x ≠ last := by rintro rfl; simp [hlfresh] at hx
    have hxc : x ≠ c := by rintro rfl; simp [hcfresh] at hx
    rw [hl, Links.set_of_ne hxl, Links.set_of_ne hxc, hc.old x hx]
  · by_cases hxc : x = c
    · simp [hxc]
    · by_cases hxl : x = last
      · simp [hxl]
      · rw [hl, Links.set_of_ne hxl, Links.set_of_ne hxc] at hx'
        exact List.mem_append_left _ (hc.new x hx hx')
  · rcases List.mem_append.1 hx with hx | hx
    · exact hc.fresh x hx
    · obtain rfl := List.mem_singleton.1 hx
      exact hcfresh
  · obtain rfl : x₀ = x := by
      rw [List.head?_append_of_ne_nil _ (by simp)] at hx
      exact Option.some.inj (hx₀.symm.trans hx)
    have hcmem : c ∉ as ++ [last] ++ source :: rest := fun hmem => by simpa [hnew] using hchain.live c hmem
    have hcopy := hc.isChain_copy hs hnew
    have hlmem : last ∉ c :: rest := by
      intro hmem
      rcases List.mem_cons.1 hmem with rfl | hmem
      · exact hcmem (by simp)
      · have hlive := (hc.source source rfl).live last (List.mem_cons_of_mem _ hmem)
        simp [hlfresh] at hlive
    have h1 : (h.links.set c s.parent?).IsChain x₀ (as ++ last :: source :: rest) := by
      have := hchain.set_of_notMem hcmem s.parent?
      simpa using this
    rw [hl]
    simpa using h1.graft hcopy hlmem

end Step

end Copying

/-- What one step of a copy does: memory runs out, or one stack more is copied and the last copy linked to it. -/
theorem copyStacks_cons {source : BlockId} {rest copies : List BlockId} {r : Except Failure (List BlockId)}
    (hr : h.copyStacks (source :: rest) copies = .ok (r, h')) :
    ∃ s, h.stack? source = some s ∧
      ((∃ e, r = .error e ∧ h' = h.discardAll copies) ∨
        ∃ c h₁ h₂, h.alloc (.stack s.deepCopy) .normal = .ok (c, h₁) ∧
          (copies = [] ∧ h₂ = h₁ ∨ ∃ last, copies.getLast? = some last ∧ h₁.relink last (some c) = .ok h₂) ∧
          h₂.copyStacks rest (copies ++ [c]) = .ok (r, h')) := by
  unfold copyStacks at hr
  simp only [bind, Except.bind] at hr
  cases hs : h.stack source with
  | error f => simp [hs] at hr
  | ok s =>
    refine ⟨s, stack_eq_ok_iff.1 hs, ?_⟩
    simp only [hs] at hr
    split at hr
    · obtain ⟨rfl, rfl⟩ := Prod.mk.inj (Except.ok.inj hr)
      exact .inl ⟨_, rfl, rfl⟩
    · next c h₁ ha =>
      refine .inr ⟨c, h₁, ?_⟩
      split at hr
      · next last hlast =>
        split at hr
        · cases hr
        · next h₂ hrel => exact ⟨h₂, ha, .inr ⟨last, hlast, hrel⟩, hr⟩
      · next hnone => exact ⟨h₁, ha, .inl ⟨List.getLast?_eq_none_iff.1 hnone, rfl⟩, hr⟩

theorem freeListed_copyStacks {r : Except Failure (List BlockId)} : ∀ {sources copies : List BlockId} {h : Heap},
    h.FreeListed → h.copyStacks sources copies = .ok (r, h') → h'.FreeListed ∧ h.capacity ≤ h'.capacity := by
  intro sources
  induction sources with
  | nil =>
    intro copies h hf hr
    obtain ⟨-, rfl⟩ := Prod.mk.inj (Except.ok.inj hr)
    exact ⟨hf, le_rfl⟩
  | cons source rest ih =>
    intro copies h hf hr
    obtain ⟨s, -, ⟨e, -, rfl⟩ | ⟨c, h₁, h₂, ha, hlink, hr⟩⟩ := copyStacks_cons hr
    · obtain ⟨hf', hcap, -⟩ := discardAll_spec copies hf
      exact ⟨hf', hcap.ge⟩
    · have hf₁ := hf.alloc ha
      rcases hlink with ⟨-, rfl⟩ | ⟨last, -, hrel⟩
      · obtain ⟨hf', hcap⟩ := ih hf₁ hr
        exact ⟨hf', (capacity_alloc ha).trans hcap⟩
      · obtain ⟨hf', hcap⟩ := ih (freeListed_relink hf₁ hrel) hr
        exact ⟨hf', (capacity_alloc ha).trans ((capacity_relink hrel).ge.trans hcap)⟩

/-- **The copy of a chain**, stack by stack: it is finished, or nothing is left of it. -/
theorem copyStacks_spec {L : Links} {r : Except Failure (List BlockId)} : ∀ {sources copies : List BlockId} {h : Heap},
    Copying L h copies sources → h.copyStacks sources copies = .ok (r, h') → h'.capacity ≤ 2 ^ 32 →
    match r with
    | .ok all => Copying L h' all [] ∧ all.length = copies.length + sources.length
    | .error _ => h'.FreeListed ∧ h'.links = L := by
  intro sources
  induction sources with
  | nil =>
    intro copies h hc hr _
    obtain ⟨rfl, rfl⟩ := Prod.mk.inj (Except.ok.inj hr)
    exact ⟨hc, rfl⟩
  | cons source rest ih =>
    intro copies h hc hr hcap
    obtain ⟨s, hs, ⟨e, rfl, rfl⟩ | ⟨c, h₁, h₂, ha, hlink, hr⟩⟩ := copyStacks_cons hr
    · exact ⟨(discardAll_spec copies hc.freeListed).1, hc.links_discardAll⟩
    · have hf₁ := hc.freeListed.alloc ha
      have hstep : Copying L h₂ (copies ++ [c]) rest := by
        rcases hlink with ⟨rfl, rfl⟩ | ⟨last, hlast, hrel⟩
        · rcases links_alloc_stack hc.freeListed ha with ⟨hnew, hl, -⟩ | ⟨hover, -⟩
          · exact hc.first hs hf₁ hnew hl
          · exact absurd (freeListed_copyStacks hf₁ hr).2 (by omega)
        · have hf₂ := freeListed_relink hf₁ hrel
          rcases links_alloc_stack hc.freeListed ha with ⟨hnew, hl, -⟩ | ⟨hover, -⟩
          · exact hc.next hs hlast hf₂ hnew (by rw [links_relink hrel, hl, Segment.parent?_deepCopy])
          · rw [← capacity_relink hrel] at hover
            exact absurd (freeListed_copyStacks hf₂ hr).2 (by omega)
      have hlen : (copies ++ [c]).length + rest.length = copies.length + (source :: rest).length := by
        simp only [List.length_append, List.length_cons, List.length_nil]
        omega
      rw [← hlen]
      exact ih hstep hr hcap

/-- **A clone.**  It fails and leaves the links as they were, or the new capsule holds the head of a chain of new
stacks and the stacks of before have their links. -/
theorem cloneChain_spec {r : Except Failure BlockId} (hf : h.FreeListed) (hr : h.cloneChain k = .ok (r, h'))
    (hcap : h'.capacity ≤ 2 ^ 32) : h.capacity ≤ h'.capacity ∧
    match r with
    | .ok k' => ∃ c copies, Copying h.links h' (c :: copies) [] ∧ h'.fullHead k' = .ok c
    | .error _ => h'.FreeListed ∧ h'.links = h.links := by
  unfold cloneChain at hr
  split at hr
  · obtain ⟨rfl, rfl⟩ := Prod.mk.inj (Except.ok.inj hr)
    exact ⟨le_rfl, hf, rfl⟩
  · next head _ =>
    simp only [bind, Except.bind] at hr
    cases hsources : h.chain head with
    | error f => simp [hsources] at hr
    | ok sources =>
      have hchain := chain_eq_ok_iff.1 hsources
      simp only [hsources] at hr
      split at hr
      · cases hr
      · next r₁ hcopy =>
        obtain ⟨r₁, h₁⟩ := r₁
        obtain ⟨hf₁, hle⟩ := freeListed_copyStacks hf hcopy
        cases r₁ with
        | error e =>
          obtain ⟨rfl, rfl⟩ := Prod.mk.inj (Except.ok.inj hr)
          exact ⟨hle, copyStacks_spec (.start hf hchain) hcopy hcap⟩
        | ok copies =>
          simp only at hr
          split at hr
          · next k' h₂ ha =>
            obtain ⟨rfl, rfl⟩ := Prod.mk.inj (Except.ok.inj hr)
            have hle₂ := capacity_alloc ha
            obtain ⟨hc, hlen⟩ := copyStacks_spec (.start hf hchain) hcopy (hle₂.trans hcap)
            obtain ⟨c, cs, rfl⟩ : ∃ c cs, copies = c :: cs := by
              refine List.exists_cons_of_ne_nil fun hnil => ?_
              have hpos := List.length_pos_of_mem hchain.mem
              simp only [hnil, List.length_nil] at hlen
              omega
            refine ⟨hle.trans hle₂, c, cs, hc.of_quiet (quiet_alloc ha (by simp)), ?_⟩
            -- the new block is the capsule
            rcases alloc_cell? hc.freeListed ha with ⟨-, g, hcell⟩ | ⟨hover, -⟩
            · have hget : h₂.get? k' = some (.capsule (.full c)) := by
                unfold get?
                rw [hcell, if_pos rfl]
                rfl
              simp [fullHead, capsule?, hget, Capsule.fullHead, Except.mapError]
            · omega
          · next e ha =>
            obtain ⟨rfl, rfl⟩ := Prod.mk.inj (Except.ok.inj hr)
            rw [(discardAll_spec copies hf₁).2.1] at hcap ⊢
            obtain ⟨hc, -⟩ := copyStacks_spec (.start hf hchain) hcopy hcap
            exact ⟨hle, (discardAll_spec copies hc.freeListed).1, hc.links_discardAll⟩

end FiberStacks.Heap
