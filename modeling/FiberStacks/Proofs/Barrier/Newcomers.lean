import FiberStacks.Proofs.Barrier.Calls
import FiberStacks.Proofs.Barrier.ChainMarks
import FiberStacks.Proofs.Chains.Clones

/-!
# New stacks and the barrier

A new stack is young or old from the start, depending on its size, and no domain has queued it.  So it is unseen if it
is old and refers to a young block: by a handler, by a copied word or by the link to the next copy.

* `Heap.Large`, `Heap.HoldsYoung` — stacks that are old when they are copied, and stacks that refer to young blocks
  apart from their parents;
* `Heap.safe_alloc_iff` — a new stack;
* `Heap.safe_clone_iff` — a chain copied, stack by stack;
* `Machine.safe_newcomer_iff` — **exactly when a new fiber and a clone keep a machine safe**.
-/

namespace FiberStacks

open FiberStacks.Action

variable {others : List Domain} {s t : Active}

namespace Heap

variable {h h' h₁ : Heap} {b c : BlockId} {x y : Segment} {ds : List Domain}

theorem birth_normal_eq_old {n : Nat} : birth .normal n = .old ↔ maxYoungWords < n := by
  simp [birth]

/-- **Blocks are added**: a stack that refers to blocks of before is seen if it was. -/
theorem safeAt_extend (hcell : h'.cell? b = h.cell? b) (hclosed : h.ClosedAt b)
    (hext : ∀ c, h.contains c = true → h'.cell? c = h.cell? c) : h'.SafeAt ds b ↔ h.SafeAt ds b := by
  have hexposed : h'.Exposed b ↔ h.Exposed b := by
    unfold Exposed
    rw [hcell]
    refine exists_congr fun s => and_congr_right fun hs => exists_congr fun c => and_congr_right fun hc => ?_
    rw [isYoung, isYoung, generation?, generation?, hext c (hclosed s (stack?_of_cell? hs) c hc)]
  simp only [SafeAt, hexposed, Queued, owner?_congr hcell]

/-- **A new stack without mark**, on which no domain runs, is safe if it refers to no young block or is young. -/
theorem safeAt_new (hb : h'.cell? b = some ⟨birth .normal y.size, .stack y⟩) (howner : y.owner = none)
    (hrun : ¬ RunOn ds b) :
    h'.SafeAt ds b ↔ (maxYoungWords < y.size → ∀ c ∈ y.references, h'.isYoung c = false) := by
  have hqueued : ¬ h'.Queued ds b := by
    rintro ⟨d, -, ho, -⟩
    rw [owner?_of_stack? (stack?_of_cell? hb), howner] at ho
    cases ho
  rw [SafeAt, or_iff_right hrun, ← birth_normal_eq_old, iff_false_intro hqueued, imp_false]
  constructor
  · intro he hold c hc
    by_contra hyoung
    exact he ⟨y, hold ▸ hb, c, hc, by simpa using hyoung⟩
  · rintro hsafe ⟨y', hb', c, hc, hyoung⟩
    obtain ⟨hg, ho⟩ := Cell.mk.inj (Option.some.inj (hb.symm.trans hb'))
    rw [← Object.stack.inj ho] at hc
    simp [hsafe hg c hc] at hyoung

/-- **A stack is allocated.**  If it is large, it must not refer to a young block. -/
theorem safe_alloc_iff (hs : h.Safe ds) (hf : h.FreeListed) (hclosed : ∀ b, ¬ RunOn ds b → h.ClosedAt b)
    (hlive : ∀ b, RunOn ds b → h.contains b = true) (howner : y.owner = none)
    (ha : h.alloc (.stack y) .normal = .ok (b, h')) (hcap : h'.capacity ≤ 2 ^ 32) :
    h'.Safe ds ↔ (maxYoungWords < y.size → ∀ c ∈ y.references, h.isYoung c = false) := by
  rcases alloc_cell?_birth hf ha with ⟨hnew, hcell⟩ | ⟨hover, -⟩
  · have hself : h'.cell? b = some ⟨birth .normal y.size, .stack y⟩ := by rw [hcell, if_pos rfl]; rfl
    have hrun : ¬ RunOn ds b := fun hr => by simpa [contains, hnew] using hlive b hr
    have hnewer : h'.SafeAt ds b ↔ _ := safeAt_new hself howner hrun
    have hyoung : maxYoungWords < y.size → ∀ c, h'.isYoung c = h.isYoung c := fun hlarge c => by
      unfold isYoung generation?
      rw [hcell]
      split
      · next he =>
        have hold : birth .normal (Object.stack y).size = .old := birth_normal_eq_old.2 hlarge
        simp [he, hnew, hold]
      · rfl
    constructor
    · exact fun hsafe hlarge c hc => hyoung hlarge c ▸ hnewer.1 (hsafe b) hlarge c hc
    · intro hold c
      by_cases hc : c = b
      · exact hc ▸ hnewer.2 fun hlarge c hc => (hyoung hlarge c).trans (hold hlarge c hc)
      · exact (hs c).alloc hf (or_iff_not_imp_left.2 (hclosed c)) ha (.inl hc)
  · omega

/-! ### Chains copied -/

/-- The stack is too large for a young copy. -/
def Large (h : Heap) (b : BlockId) : Prop := ∃ x ∈ h.stack? b, maxYoungWords < x.size

/-- The stack refers to a young block by a handler or a used word. -/
def HoldsYoung (h : Heap) (b : BlockId) : Prop := ∃ x ∈ h.stack? b, ∃ c ∈ x.held, h.isYoung c = true

instance : Decidable (h.Large b) := inferInstanceAs (Decidable (∃ x ∈ h.stack? b, maxYoungWords < x.size))

instance : Decidable (h.HoldsYoung b) :=
  inferInstanceAs (Decidable (∃ x ∈ h.stack? b, ∃ c ∈ x.held, h.isYoung c = true))

theorem large_iff (hx : h.stack? b = some x) : h.Large b ↔ maxYoungWords < x.size := by
  simp [Large, hx]

namespace Clone

variable {k k' : BlockId} {sources copies : List BlockId} {i : Nat}

theorem mem_references_copy (hc : Clone h h' k k' sources copies h₁) (hparent : y.parent? = sources[i + 1]?) :
    c ∈ (y.copyTo copies[i + 1]?).references ↔ c ∈ y.held ∨ copies[i + 1]? = some c := by
  have hheld : (y.copyTo copies[i + 1]?).held = y.held := by cases copies[i + 1]? <;> rfl
  rw [Segment.mem_references, hheld, hc.parent?_copy hparent]

theorem next_old_iff (hc : Clone h h' k k' sources copies h₁) :
    (∀ c, copies[i]? = some c → h'.isYoung c = false) ↔ ∀ b, sources[i]? = some b → h.Large b := by
  by_cases hlt : i < sources.length
  · obtain ⟨y, c, hy, hcopy, -, hcell⟩ := hc.cell?_copy (List.getElem?_eq_getElem hlt)
    have hyoung : h'.isYoung c = false ↔ maxYoungWords < y.size := by
      simp only [isYoung, generation?, hcell, Option.map_some, ← birth_normal_eq_old]
      cases birth .normal y.size <;> simp
    rw [List.getElem?_eq_getElem hlt, hcopy]
    simp [hyoung, large_iff hy]
  · have hle := Nat.le_of_not_lt hlt
    have hnone : copies[i]? = none := List.getElem?_eq_none (hc.copies.length ▸ hle)
    simp [List.getElem?_eq_none hle, hnone]

/-- **A copy is seen** if it is young, or refers to no young block and the next copy is old. -/
theorem safeAt_copy (hc : Clone h h' k k' sources copies h₁) (hclosed : h.ClosedAt b)
    (hlive : ∀ b, RunOn ds b → h.contains b = true) (hb : sources[i]? = some b) (hcopy : copies[i]? = some c) :
    h'.SafeAt ds c ↔ (h.Large b → ¬ h.HoldsYoung b ∧ ∀ n, sources[i + 1]? = some n → h.Large n) := by
  obtain ⟨y, c', hy, hc', hparent, hcell⟩ := hc.cell?_copy hb
  obtain rfl := Option.some.inj (hcopy.symm.trans hc')
  have hrun : ¬ RunOn ds c := fun hr => by
    have hfresh := hc.copies.fresh c (List.mem_of_getElem? hcopy)
    simpa [contains, hfresh] using hlive c hr
  have hheld : (∀ r ∈ y.held, h'.isYoung r = false) ↔ ¬ h.HoldsYoung b := by
    have hold : ∀ r ∈ y.held, h'.isYoung r = h.isYoung r := fun r hr => by
      have hr := hclosed y hy r (Segment.mem_references.2 (.inl hr))
      rw [isYoung, isYoung, generation?, generation?, hc.cell?_of_contains hr]
    simp only [HoldsYoung, hy, Option.mem_some_iff, exists_eq_left', not_exists, not_and, Bool.not_eq_true]
    exact forall₂_congr fun r hr => by rw [hold r hr]
  have hsize : h'.cell? c = some ⟨birth .normal (y.copyTo copies[i + 1]?).size, .stack (y.copyTo copies[i + 1]?)⟩ := by
    rw [Segment.size_copyTo, hcell]
  rw [safeAt_new hsize (Segment.owner_copyTo ..) hrun, Segment.size_copyTo, large_iff hy, ← hheld, ← hc.next_old_iff]
  simp only [hc.mem_references_copy hparent, or_imp, forall_and]

end Clone

/-- **A chain is cloned.**  The clone is safe exactly if no large stack of the chain refers to a young block, and none
has a small one as its parent. -/
theorem safe_clone_iff {k k' : BlockId} {sources copies : List BlockId} (hs : h.Safe ds)
    (hclosed : ∀ b, ¬ RunOn ds b → h.ClosedAt b) (hlive : ∀ b, RunOn ds b → h.contains b = true)
    (hsources : ∀ b ∈ sources, h.ClosedAt b) (hc : Clone h h' k k' sources copies h₁) :
    h'.Safe ds ↔ (∀ b ∈ sources, h.Large b → ¬ h.HoldsYoung b) ∧
      List.IsChain (fun b n => h.Large b → h.Large n) sources := by
  have hcopy : ∀ i b, sources[i]? = some b → ∃ c, copies[i]? = some c ∧ (h'.SafeAt ds c ↔
      (h.Large b → ¬ h.HoldsYoung b ∧ ∀ n, sources[i + 1]? = some n → h.Large n)) := fun i b hb => by
    obtain ⟨y, c, -, hcopy, -⟩ := hc.cell?_copy hb
    exact ⟨c, hcopy, hc.safeAt_copy (hsources b (List.mem_of_getElem? hb)) hlive hb hcopy⟩
  constructor
  · intro hsafe
    refine ⟨fun b hb hlarge => ?_, List.isChain_iff_getElem.2 fun i hi hlarge => ?_⟩
    · obtain ⟨i, hi⟩ := List.getElem?_of_mem hb
      obtain ⟨c, -, hiff⟩ := hcopy i b hi
      exact (hiff.1 (hsafe c) hlarge).1
    · obtain ⟨c, -, hiff⟩ := hcopy i _ (List.getElem?_eq_getElem (by omega))
      exact (hiff.1 (hsafe c) hlarge).2 _ (List.getElem?_eq_getElem hi)
  · rintro ⟨hheld, hnext⟩ c
    by_cases hmem : c ∈ copies
    · obtain ⟨i, hi⟩ := List.getElem?_of_mem hmem
      have hlt : i < sources.length := hc.copies.length ▸ (List.getElem?_eq_some_iff.1 hi).1
      have hb := List.getElem?_eq_getElem hlt
      obtain ⟨c', hc', hiff⟩ := hcopy i _ hb
      obtain rfl := Option.some.inj (hi.symm.trans hc')
      refine hiff.2 fun hlarge => ⟨hheld _ (List.getElem_mem hlt) hlarge, fun n hn => ?_⟩
      obtain ⟨hlt', rfl⟩ := List.getElem?_eq_some_iff.1 hn
      exact List.isChain_iff_getElem.1 hnext i hlt' hlarge
    · by_cases hrun : RunOn ds c
      · exact .of_runOn hrun
      obtain ⟨head, -, -, hcell⟩ := hc.chain
      by_cases hk : c = k'
      · refine .of_not_exposed fun ⟨y, hy, _⟩ => ?_
        rw [hcell, if_pos hk] at hy
        cases hy
      · have hcell : h'.cell? c = h.cell? c := by rw [hcell, if_neg hk, hc.copies.others c hmem]
        exact (safeAt_extend hcell (hclosed c hrun) fun _ => hc.cell?_of_contains).2 (hs c)

end Heap

def Handlers.named (hs : Handlers) : List BlockId := [hs.value, hs.exception, hs.effect].filterMap Word.block?

namespace Act

/-! ### New fibers -/

/-- The state with the live stack pointer of the domain written back. -/
def synced (s : Active) : Active := (syncStack s).2

/-- **The new stacks a domain makes.** -/
inductive Newcomer where
  | fiber (words : Nat) (handlers : Handlers)
  /-- A clone of a captured chain. -/
  | clone (k : BlockId)
deriving DecidableEq, Repr

namespace Newcomer

def act : Newcomer → Act BlockId
  | fiber words hs => newStackOf words hs
  | clone k => cloneContinuation k

def sources (s : Active) : Newcomer → List BlockId
  | fiber _ _ => []
  | clone k => match (synced s).world.heap.fullHead k with
    | .ok head => ((synced s).world.heap.chain head).toOption.getD []
    | .error _ => []

/-- **No new stack is old and refers to a young block.** -/
def Harmless (s : Active) : Newcomer → Prop
  | fiber words hs => maxYoungWords < contextWords + words + headerWords →
      ∀ c ∈ hs.named, s.world.heap.isYoung c = false
  | clone k => (∀ b ∈ (clone k).sources s, (synced s).world.heap.Large b → ¬ (synced s).world.heap.HoldsYoung b) ∧
      List.IsChain (fun b n => (synced s).world.heap.Large b → (synced s).world.heap.Large n) ((clone k).sources s)

instance (s : Active) (n : Newcomer) : Decidable (n.Harmless s) :=
  match n with
  | fiber words hs => inferInstanceAs (Decidable (maxYoungWords < contextWords + words + headerWords →
      ∀ c ∈ hs.named, s.world.heap.isYoung c = false))
  | clone k => inferInstanceAs (Decidable ((∀ b ∈ (clone k).sources s, (synced s).world.heap.Large b →
      ¬ (synced s).world.heap.HoldsYoung b) ∧
      List.IsChain (fun b n => (synced s).world.heap.Large b → (synced s).world.heap.Large n) ((clone k).sources s)))

end Newcomer

/-- **A new fiber.** -/
theorem newStackOf_safe (h : Steady others s)
    (hlive : ∀ b, Heap.RunOn (s.domain :: others) b → s.world.heap.contains b = true) (words : Nat) (hs : Handlers) :
    (newStackOf words hs).wp s (fun _ t => t.world.heap.capacity ≤ 2 ^ 32 →
      (t.world.heap.Safe (t.domain :: others) ↔ (Newcomer.fiber words hs).Harmless s)) (SafeAfter others) := by
  unfold newStackOf
  simp only [wp_bind, wp_layout, wp_check, wp_allocate]
  refine ⟨fun x hx => ⟨fun e _ => ?_, fun b h' ha => ?_⟩, fun _ _ => by simp [SafeAfter]⟩
  · refine wp_mono (wp_and ((bookkeeping_steady others).relates (beside_raiseExn .outOfMemory) s)
      (stops_raiseExn .outOfMemory s)) (fun _ _ h => h.2.elim) fun _ t ht _ => (ht.1 h).safe
  · have hx := Segment.bare_fiber hx
    have hsize : x.size = contextWords + words + headerWords := by rw [Segment.size, hx.capacity]
    simp only [wp_note, wp_pure]
    intro hcap
    refine (Heap.safe_alloc_iff h.safe h.freeListed h.closed hlive hx.owner ha hcap).trans ?_
    simp only [Newcomer.Harmless, hsize, hx.mem_references, Handlers.named]

/-! ### Clones -/

/-- **A clone of a captured chain.** -/
theorem cloneContinuation_safe (h : Steady others s)
    (hlive : ∀ b, Heap.RunOn (s.domain :: others) b → s.world.heap.contains b = true) (k : BlockId)
    (hsources : ∀ b ∈ (Newcomer.clone k).sources s, (synced s).world.heap.ClosedAt b) :
    (cloneContinuation k).wp s (fun _ t => t.world.heap.capacity ≤ 2 ^ 32 →
      (t.world.heap.Safe (t.domain :: others) ↔ (Newcomer.clone k).Harmless s))
      fun e t => t.world.heap.capacity ≤ 2 ^ 32 → SafeAfter others e t := by
  unfold cloneContinuation
  have hsynced : syncStack.wp s (fun _ t => t = synced s) fun _ t => t = synced s := wp_iff_snd.2 rfl
  refine wp_bind_of (wp_and (wp_and (syncStack_steady h) syncStack_contains) hsynced) ?_
    fun e t ht _ he => absurd he ht.1.1
  rintro - t ⟨⟨ht, hdomain, hcontains⟩, rfl⟩
  have hlive' : ∀ b, Heap.RunOn ((synced s).domain :: others) b → (synced s).world.heap.contains b = true :=
    fun b hb => (hcontains b).trans (hlive b (hdomain ▸ hb))
  simp only [wp_bind, wp_heap, wp_check, wp_setHeap]
  refine ⟨?_, fun _ _ _ => by simp [SafeAfter]⟩
  rintro ⟨r, h'⟩ hr
  cases r with
  | ok k' =>
    intro hcap
    obtain ⟨l, copies, h₁, hc⟩ := Heap.cloneChain_cells ht.freeListed hr hcap
    obtain ⟨head, hhead, hl, -⟩ := hc.chain
    have hl : (Newcomer.clone k).sources s = l := by
      simp only [Newcomer.sources, hhead, hl, Except.toOption, Option.getD_some]
    have hclone := Heap.safe_clone_iff ht.safe ht.closed hlive' (hl ▸ hsources) hc
    simpa only [Newcomer.Harmless, hl, World.heap_adopt] using hclone
  | error e =>
    refine wp_mono (wp_and (wp_and ((bookkeeping_steady others).relates (beside_raiseFailure e) _)
      (stops_raiseFailure e _)) (quiet_of_beside (beside_raiseFailure e) _)) (fun _ _ h => h.1.2.elim)
      fun _ u hu hcap _ => ?_
    obtain ⟨hf, hcell⟩ := Heap.cloneChain_cells ht.freeListed hr (hu.2.capacity.trans hcap)
    exact (hu.1.1 (ht.of_cells hf hcell)).safe

end Act

namespace Machine

variable {m m' : Machine} {d : DomainId}

/-- Domains run on live blocks. -/
def Running (m : Machine) : Prop := ∀ x ∈ m.domains, ∀ b ∈ x.current?, m.world.heap.contains b = true

/-- **Exactly when a new fiber and a clone keep a machine safe.**  They do unless a new stack is old and refers to a
young block: a large fiber whose handlers name one, a copy of a large stack that holds one, or the copy of a large
stack that has the copy of a small one as its parent.  A domain that raises instead leaves the machine safe. -/
theorem safe_newcomer_iff {x : Domain} {r : Except Stop BlockId} (n : Act.Newcomer) (hs : m.Sound) (hsafe : m.Safe)
    (hclosed : m.Closed) (hlive : m.Running) (hx : m.domain? d = some x)
    (hsources : ∀ b ∈ n.sources ⟨x, m.world⟩, (Act.synced ⟨x, m.world⟩).world.heap.ClosedAt b)
    (h : m.act d n.act = some (r, m')) (hcap : m'.world.heap.capacity ≤ 2 ^ 32) :
    (∀ b, r = .ok b → (m'.Safe ↔ n.Harmless ⟨x, m.world⟩)) ∧ (r = .error .raised → m'.Safe) := by
  obtain ⟨x', others, t, hx', hact⟩ := acting hs h
  obtain rfl := Option.some.inj (hx.symm.trans hx')
  have hsteady : Steady others ⟨x, m.world⟩ := hact.steady hs hsafe hclosed
  have hrunning : ∀ b, Heap.RunOn (x :: others) b → m.world.heap.contains b = true := fun b ⟨y, hy, hb⟩ =>
    hlive y (hact.perm.mem_iff.2 hy) b hb
  rw [hact.world] at hcap
  have hspec : n.act.wp ⟨x, m.world⟩ (fun _ t => t.world.heap.capacity ≤ 2 ^ 32 →
      (t.world.heap.Safe (t.domain :: others) ↔ n.Harmless ⟨x, m.world⟩))
      (fun e t => t.world.heap.capacity ≤ 2 ^ 32 → Act.SafeAfter others e t) ∧
        Marked ⟨x, m.world⟩ (n.act ⟨x, m.world⟩).2 := by
    cases n with
    | fiber words handlers =>
      exact ⟨wp_mono (Act.newStackOf_safe hsteady hrunning words handlers) (fun _ _ h => h) fun _ _ h _ => h,
        (Act.marks_of_advances (Act.founding_advances.newStackOf words handlers)).marked hs.freeListed⟩
    | clone k =>
      exact ⟨Act.cloneContinuation_safe hsteady hrunning k hsources,
        (Act.marks_cloneContinuation k).marked hs.freeListed⟩
  obtain ⟨hspec, hmarked⟩ := hspec
  have hid : t.domain.id = x.id := by rw [hact.run] at hmarked; exact hmarked.id
  rw [hact.safe_iff hid]
  refine ⟨?_, ?_⟩
  · rintro b rfl
    exact (wp_of_ok hact.run).1 hspec hcap
  · rintro rfl
    exact (wp_of_error hact.run).1 hspec hcap rfl

/-- A domain on a small stack, a young block, and a capsule over a large stack that has a handler naming the block and
is marked and queued. -/
def withLarge : Machine where
  world := .initial {} .bytecode { Heap.empty 2000 2000 with
    cells := [some ⟨.old, .stack (.blank 1 .zero)⟩, some ⟨.young, .block 0 [.unit]⟩,
      some ⟨.old, .stack { Segment.blank 251 ⟨.ofBlock ⟨1⟩, .unit, .unit⟩ with owner := some ⟨1⟩ }⟩,
      some ⟨.young, .capsule (.full ⟨2⟩)⟩]
    liveWords := 268 }
  domains := [{ Domain.fresh ⟨1⟩ 100 with registers := some ⟨⟨0⟩, 0, 1⟩, remembered := ⟨[⟨2⟩]⟩ }]

theorem withLarge_spec : withLarge.Sound ∧ withLarge.Safe ∧ withLarge.MarksQueued ∧ withLarge.Closed ∧
    withLarge.Running := by
  refine ⟨sound_of_freeList rfl (List.pairwise_singleton ..), Heap.safe_of_liveStacks ?_, marksQueued_of_liveStacks ?_,
    closed_of_liveStacks ?_, ?_⟩
  · decide +kernel
  · decide +kernel
  · decide +kernel
  · unfold Running
    decide +kernel

/-- What is left when a new stack was made there. -/
def afterNewcomer (n : Act.Newcomer) : Machine := ((withLarge.act ⟨1⟩ n.act).map Prod.snd).getD withLarge

theorem act_afterNewcomer {n : Act.Newcomer} {r : Except Stop BlockId}
    (h : (withLarge.act ⟨1⟩ n.act).map Prod.fst = some r) : withLarge.act ⟨1⟩ n.act = some (r, afterNewcomer n) := by
  obtain ⟨⟨r', m⟩, hm, rfl⟩ := Option.map_eq_some_iff.1 h
  rw [afterNewcomer, hm]
  rfl

/-- A large fiber without handlers is harmless, and the clone of the large stack is not. -/
theorem safe_newcomer_withLarge :
    withLarge.Sound ∧ withLarge.Safe ∧ withLarge.Closed ∧ withLarge.Running ∧
      (∃ b m', withLarge.act ⟨1⟩ (Act.Newcomer.fiber 250 .zero).act = some (.ok b, m') ∧ m'.Safe) ∧
      ∃ b m', withLarge.act ⟨1⟩ (Act.Newcomer.clone ⟨3⟩).act = some (.ok b, m') ∧ ¬ m'.Safe := by
  obtain ⟨hs, hsafe, -, hclosed, hlive⟩ := withLarge_spec
  have hfiber := act_afterNewcomer (n := .fiber 250 .zero) (r := .ok ⟨4⟩) (by decide +kernel)
  have hclone := act_afterNewcomer (n := .clone ⟨3⟩) (r := .ok ⟨5⟩) (by decide +kernel)
  refine ⟨hs, hsafe, hclosed, hlive, ⟨_, _, hfiber, ?_⟩, _, _, hclone, ?_⟩
  · have hiff := safe_newcomer_iff _ hs hsafe hclosed hlive rfl (by decide +kernel) hfiber (by decide +kernel)
    exact (hiff.1 _ rfl).2 (by decide +kernel)
  · have hiff := safe_newcomer_iff _ hs hsafe hclosed hlive rfl (by decide +kernel) hclone (by decide +kernel)
    exact fun hsafe' => absurd ((hiff.1 _ rfl).1 hsafe') (by decide +kernel)

/-- **A new fiber and a clone can be old stacks that refer to a young block and that no domain has queued.** -/
theorem not_safe_newcomer :
    (¬ ∀ (m m' : Machine) (d : DomainId) (words : Nat) (hs : Handlers) (b : BlockId), m.Sound → m.Safe →
      m.MarksQueued → m.Closed → m.Running → m.act d (Act.newStackOf words hs) = some (.ok b, m') → m'.Safe) ∧
    ¬ ∀ (m m' : Machine) (d : DomainId) (k b : BlockId), m.Sound → m.Safe → m.MarksQueued → m.Closed → m.Running →
      m.act d (Act.cloneContinuation k) = some (.ok b, m') → m'.Safe := by
  obtain ⟨hs, hsafe, hmarks, hclosed, hlive⟩ := withLarge_spec
  constructor
  · intro h
    have hact := act_afterNewcomer (n := .fiber 250 ⟨.ofBlock ⟨1⟩, .unit, .unit⟩) (r := .ok ⟨4⟩) (by decide +kernel)
    have hunseen := h withLarge _ ⟨1⟩ 250 _ ⟨4⟩ hs hsafe hmarks hclosed hlive hact ⟨4⟩
    revert hunseen
    decide +kernel
  · intro h
    have hact := act_afterNewcomer (n := .clone ⟨3⟩) (r := .ok ⟨5⟩) (by decide +kernel)
    have hunseen := h withLarge _ ⟨1⟩ ⟨3⟩ ⟨5⟩ hs hsafe hmarks hclosed hlive hact ⟨4⟩
    revert hunseen
    decide +kernel

end Machine

end FiberStacks
