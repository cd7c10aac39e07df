import FiberStacks.Proofs.Barrier.Segments
import FiberStacks.Proofs.Lists.Machine
import FiberStacks.Proofs.Locks.Domains

/-!
# Old stacks and young blocks

A minor pass looks at the young blocks, at the stacks domains run on and at the stacks that are marked and queued.  An
old stack that refers to a young block has to be among these, or the pass misses a root.

* `Heap.SafeAt`, `Machine.Safe` — **no old stack refers to a young block unseen**;
* `safeAt_setStack`, `SafeAt.alloc`, `SafeAt.acting` — what a change of a stack, a new block and a change of a domain
  do to the other stacks;
* `Machine.Acting` — a domain acts beside the others.
-/

namespace FiberStacks

namespace Heap

variable {h h' : Heap} {b c : BlockId} {g : Generation} {s y : Segment}

/-! ### Stacks and their marks -/

/-- The domain whose mark a live stack carries. -/
def owner? (h : Heap) (b : BlockId) : Option DomainId := (h.stack? b).bind Segment.owner

/-- An old stack that refers to a young block. -/
def Exposed (h : Heap) (b : BlockId) : Prop :=
  ∃ s, h.cell? b = some ⟨.old, .stack s⟩ ∧ ∃ c ∈ s.references, h.isYoung c = true

theorem owner?_of_stack? (hs : h.stack? b = some s) : h.owner? b = s.owner := by
  rw [owner?, hs]
  rfl

theorem owner?_eq_some_iff {o : DomainId} : h.owner? b = some o ↔ ∃ s, h.stack? b = some s ∧ s.owner = some o :=
  Option.bind_eq_some_iff

theorem owner?_congr (hcell : h'.cell? b = h.cell? b) : h'.owner? b = h.owner? b := by
  unfold owner? stack? get?
  rw [hcell]

/-! ### What a change of a stack leaves -/

theorem owner?_setStack_of_ne (hc : c ≠ b) : (h.setStack b y).owner? c = h.owner? c := by
  unfold owner?
  rw [stack?_setStack_of_ne hc]

theorem owner?_setStack_self (hs : h.stack? b = some s) : (h.setStack b y).owner? b = y.owner := by
  rw [owner?, stack?_setStack hs, if_pos rfl]
  rfl

theorem contains_eq_isSome : h.contains b = (h.generation? b).isSome := by
  simp [contains, generation?]

theorem exposed_iff : h.Exposed b ↔ h.generation? b = some .old ∧
    ∃ c ∈ ((h.stack? b).map Segment.references).getD [], h.isYoung c = true := by
  constructor
  · rintro ⟨s, hs, hc⟩
    refine ⟨by rw [generation?, hs]; rfl, ?_⟩
    rw [stack?_of_cell? hs]
    exact hc
  · rintro ⟨hg, c, hc, hyoung⟩
    cases hs : h.stack? b with
    | none => simp [hs] at hc
    | some s =>
      obtain ⟨g, hcell⟩ := cell?_of_stack? hs
      have hg' : g = .old := by simpa [generation?, hcell] using hg
      rw [hs] at hc
      exact ⟨s, hg' ▸ hcell, c, hc, hyoung⟩

theorem exposed_congr (hg : ∀ c, h'.generation? c = h.generation? c) (hs : h'.stack? b = h.stack? b) :
    h'.Exposed b ↔ h.Exposed b := by
  simp only [exposed_iff, isYoung, hg, hs]

theorem exposed_setStack_self (hs : h.cell? b = some ⟨g, .stack s⟩) :
    (h.setStack b y).Exposed b ↔ g = .old ∧ ∃ c ∈ y.references, h.isYoung c = true := by
  simp only [Exposed, isYoung_setStack]
  rw [cell?_setStack hs, if_pos rfl]
  simp

/-! ### Seen and unseen -/

def RunOn (ds : List Domain) (b : BlockId) : Prop := ∃ d ∈ ds, d.current? = some b

/-- The stack carries the mark of a domain, which has queued it. -/
def Queued (h : Heap) (ds : List Domain) (b : BlockId) : Prop :=
  ∃ d ∈ ds, h.owner? b = some d.id ∧ b ∈ d.remembered.queue

/-- **If the stack is old and refers to a young block, then a domain runs on it or it is marked and queued.** -/
def SafeAt (h : Heap) (ds : List Domain) (b : BlockId) : Prop := h.Exposed b → RunOn ds b ∨ h.Queued ds b

variable {ds ds' others : List Domain} {d d' : Domain}

theorem runOn_cons : RunOn (d :: ds) b ↔ d.current? = some b ∨ RunOn ds b := by
  simp [RunOn]

theorem queued_cons : h.Queued (d :: ds) b ↔ (h.owner? b = some d.id ∧ b ∈ d.remembered.queue) ∨ h.Queued ds b := by
  simp [Queued]

theorem runOn_acting (hcur : d'.current? = d.current?) : RunOn (d' :: others) b ↔ RunOn (d :: others) b := by
  rw [runOn_cons, runOn_cons, hcur]

theorem Queued.acting (hq : h.Queued (d :: others) b) (hid : d'.id = d.id)
    (hqueue : b ∈ d.remembered.queue → b ∈ d'.remembered.queue) : h.Queued (d' :: others) b := by
  obtain ⟨x, hx, ho, hq⟩ := hq
  rcases List.mem_cons.1 hx with rfl | hx
  · exact ⟨d', List.mem_cons_self, hid ▸ ho, hqueue hq⟩
  · exact ⟨x, List.mem_cons_of_mem _ hx, ho, hq⟩

theorem SafeAt.of_runOn (hr : RunOn ds b) : h.SafeAt ds b := fun _ => .inl hr

theorem SafeAt.of_queued (hq : h.Queued ds b) : h.SafeAt ds b := fun _ => .inr hq

theorem SafeAt.of_not_exposed (he : ¬ h.Exposed b) : h.SafeAt ds b := fun h' => absurd h' he

theorem safeAt_perm (hp : ds.Perm ds') : h.SafeAt ds b ↔ h.SafeAt ds' b := by
  simp only [SafeAt, RunOn, Queued, hp.mem_iff]

theorem safeAt_congr (hg : ∀ c, h'.generation? c = h.generation? c) (hs : h'.stack? b = h.stack? b) :
    h'.SafeAt ds b ↔ h.SafeAt ds b := by
  simp only [SafeAt, Queued, owner?, exposed_congr hg hs, hs]

/-- **A stack changed** leaves the others as they were. -/
theorem safeAt_setStack (hc : c ≠ b) : (h.setStack b y).SafeAt ds c ↔ h.SafeAt ds c :=
  safeAt_congr (generation?_setStack h b · y) (stack?_setStack_of_ne hc)

/-- **A domain changed** that still runs on the stack if it did, and has not dropped it from its queue. -/
theorem SafeAt.acting (hs : h.SafeAt (d :: others) b) (hid : d'.id = d.id)
    (hqueue : b ∈ d.remembered.queue → b ∈ d'.remembered.queue) (hcur : d.current? = some b → d'.current? = some b) :
    h.SafeAt (d' :: others) b := by
  intro he
  rcases hs he with ⟨x, hx, hxb⟩ | hq
  · rcases List.mem_cons.1 hx with rfl | hx
    · exact .inl ⟨d', List.mem_cons_self, hcur hxb⟩
    · exact .inl ⟨x, List.mem_cons_of_mem _ hx, hxb⟩
  · exact .inr (hq.acting hid hqueue)

def ClosedAt (h : Heap) (b : BlockId) : Prop := ∀ s, h.stack? b = some s → ∀ c ∈ s.references, h.contains c = true

theorem closedAt_iff : h.ClosedAt b ↔ ∀ c ∈ ((h.stack? b).map Segment.references).getD [], h.contains c = true := by
  unfold ClosedAt
  cases h.stack? b <;> simp

section Alloc

variable {o : Object} {path : AllocPath}

theorem contains_alloc (hf : h.FreeListed) (ha : h.alloc o path = .ok (b, h')) (hc : h.contains c = true) :
    h'.contains c = true := by
  unfold contains at hc ⊢
  rcases alloc_cell? hf ha with ⟨hnone, g, hcell⟩ | ⟨-, hcell⟩
  · rw [hcell, if_neg fun he => by simp [he, hnone] at hc]
    exact hc
  · rw [hcell]
    exact hc

theorem isYoung_alloc (hf : h.FreeListed) (ha : h.alloc o path = .ok (b, h')) (hc : h.contains c = true) :
    h'.isYoung c = h.isYoung c := by
  unfold isYoung generation?
  rcases alloc_cell? hf ha with ⟨hnone, g, hcell⟩ | ⟨-, hcell⟩
  · rw [hcell, if_neg fun he => by simp [contains, he, hnone] at hc]
  · rw [hcell]

theorem cell?_of_alloc (hf : h.FreeListed) (ha : h.alloc o path = .ok (b, h')) (hc : c ≠ b ∨ ∀ x, o ≠ .stack x)
    (hs : h'.cell? c = some ⟨g, .stack s⟩) : h.cell? c = some ⟨g, .stack s⟩ := by
  rcases alloc_cell? hf ha with ⟨-, g', hcell⟩ | ⟨-, hcell⟩
  · rw [hcell] at hs
    split at hs
    · next he => exact absurd (congrArg Cell.object (Option.some.inj hs)) (hc.resolve_left (absurd he) s)
    · exact hs
  · exact (hcell c).symm.trans hs

theorem ClosedAt.alloc (hclosed : h.ClosedAt c) (hf : h.FreeListed) (ha : h.alloc o path = .ok (b, h'))
    (hc : c ≠ b ∨ ∀ x, o ≠ .stack x) : h'.ClosedAt c := by
  intro s hs x hx
  obtain ⟨g, hcell⟩ := cell?_of_stack? hs
  exact contains_alloc hf ha (hclosed s (stack?_of_cell? (cell?_of_alloc hf ha hc hcell)) x hx)

/-- **A new block** leaves the stacks that refer to live blocks only as they were. -/
theorem SafeAt.alloc (hs : h.SafeAt ds c) (hf : h.FreeListed) (hclosed : RunOn ds c ∨ h.ClosedAt c)
    (ha : h.alloc o path = .ok (b, h')) (hc : c ≠ b ∨ ∀ x, o ≠ .stack x) : h'.SafeAt ds c := by
  rintro ⟨s, hcs, x, hx, hyoung⟩
  have hcs' := cell?_of_alloc hf ha hc hcs
  rcases hclosed with hrun | hclosed
  · exact .inl hrun
  · -- the stack does not refer to the new block
    have hlive := hclosed s (stack?_of_cell? hcs') x hx
    rw [isYoung_alloc hf ha hlive] at hyoung
    have howner : h'.owner? c = h.owner? c := owner?_congr (hcs.trans hcs'.symm)
    simpa only [Queued, howner] using hs ⟨s, hcs', x, hx, hyoung⟩

end Alloc

/-- **No old stack refers to a young block unseen.** -/
def Safe (h : Heap) (ds : List Domain) : Prop := ∀ b, h.SafeAt ds b

/-! ### Computing it -/

instance : Decidable (h.Exposed b) := decidable_of_iff' _ exposed_iff

instance : Decidable (h.ClosedAt b) := decidable_of_iff' _ closedAt_iff

instance : Decidable (RunOn ds b) := inferInstanceAs (Decidable (∃ d ∈ ds, d.current? = some b))

instance : Decidable (h.Queued ds b) :=
  inferInstanceAs (Decidable (∃ d ∈ ds, h.owner? b = some d.id ∧ b ∈ d.remembered.queue))

instance : Decidable (h.SafeAt ds b) := inferInstanceAs (Decidable (h.Exposed b → RunOn ds b ∨ h.Queued ds b))

theorem mem_liveStacks (hs : h.stack? b = some s) : (b, s) ∈ h.liveStacks := by
  obtain ⟨g, hc⟩ := cell?_of_stack? hs
  have hcell : h.cells[b.index]? = some (some ⟨g, .stack s⟩) := Option.join_eq_some_iff.1 hc
  refine List.mem_filterMap.2 ⟨(some ⟨g, .stack s⟩, b.index), ?_, by simp⟩
  exact List.mem_zipIdx_iff_getElem?.2 hcell

theorem safe_of_liveStacks (hl : ∀ p ∈ h.liveStacks, h.SafeAt ds p.1) : h.Safe ds := by
  rintro b ⟨s, hs, hc⟩
  exact hl (b, s) (mem_liveStacks (stack?_of_cell? hs)) ⟨s, hs, hc⟩

theorem safe_perm (hp : ds.Perm ds') : h.Safe ds ↔ h.Safe ds' := forall_congr' fun _ => safeAt_perm hp

end Heap

/-! ### Machines -/

namespace Machine

variable {m m' : Machine} {d : DomainId}

/-- **Every live old stack that refers to a young block** is one a domain runs on, or carries the mark of a domain
that has queued it. -/
def Safe (m : Machine) : Prop := m.world.heap.Safe m.domains

/-- **Every mark is that of a domain that has queued the stack.** -/
def MarksQueued (m : Machine) : Prop :=
  ∀ b o, m.world.heap.owner? b = some o → ∃ d ∈ m.domains, d.id = o ∧ b ∈ d.remembered.queue

/-- **No stack refers to a freed block.**  A stack that a domain runs on may hold anything. -/
def Closed (m : Machine) : Prop := ∀ b, ¬ Heap.RunOn m.domains b → m.world.heap.ClosedAt b

/-- The heap names empty cells as free ones, and no two domains have one number. -/
structure Sound (m : Machine) : Prop where
  freeListed : m.world.heap.FreeListed
  distinct : m.domains.Pairwise fun a b => a.id ≠ b.id

theorem Sound.domain?_of_mem {x : Domain} (hs : m.Sound) (hx : x ∈ m.domains) : m.domain? x.id = some x := by
  have hids : (m.domains.map Domain.id).Nodup := List.pairwise_map.2 hs.distinct
  obtain ⟨y, hy⟩ : ∃ y, m.domain? x.id = some y := Option.isSome_iff_exists.1 <|
    List.find?_isSome.2 ⟨x, hx, beq_self_eq_true x.id⟩
  rw [hy, List.inj_on_of_nodup_map hids (List.mem_of_find?_eq_some hy) hx (id_of_domain? hy)]

theorem marksQueued_of_liveStacks (hl : ∀ p ∈ m.world.heap.liveStacks, ∀ o ∈ p.2.owner,
    ∃ d ∈ m.domains, d.id = o ∧ p.1 ∈ d.remembered.queue) : m.MarksQueued := by
  intro b o hb
  obtain ⟨s, hs, ho⟩ := Heap.owner?_eq_some_iff.1 hb
  exact hl (b, s) (Heap.mem_liveStacks hs) o ho

theorem closed_of_liveStacks (hl : ∀ p ∈ m.world.heap.liveStacks,
    Heap.RunOn m.domains p.1 ∨ m.world.heap.ClosedAt p.1) : m.Closed := by
  intro b hb s hs
  exact (hl (b, s) (Heap.mem_liveStacks hs)).resolve_left hb s hs

theorem sound_of_freeList (hlist : m.world.heap.freeList = []) (hd : m.domains.Pairwise fun a b => a.id ≠ b.id) :
    m.Sound :=
  ⟨⟨by simp [hlist], by simp [hlist]⟩, hd⟩

/-- **A domain acts beside the others**: it is `x` before and leaves the state `t`. -/
structure Acting {α : Type} (m m' : Machine) (a : Act α) (r : Except Stop α) (x : Domain) (others : List Domain)
    (t : Active) : Prop where
  perm : m.domains.Perm (x :: others)
  distinct : ∀ y ∈ others, y.id ≠ x.id
  run : a ⟨x, m.world⟩ = (r, t)
  world : m'.world = t.world
  /-- A domain that keeps its number takes its place among the others. -/
  domains : t.domain.id = x.id → m'.domains.Perm (t.domain :: others)

theorem acting {α : Type} {a : Act α} {r : Except Stop α} (hs : m.Sound) (h : m.act d a = some (r, m')) :
    ∃ x others t, m.domain? d = some x ∧ Acting m m' a r x others t := by
  obtain ⟨x, t, hx, ha, rfl⟩ := act_eq_some h
  obtain ⟨as, bs, hm⟩ := domain?_eq_some hx
  have hperm : m.domains.Perm (x :: (as ++ bs)) := hm ▸ List.perm_middle
  refine ⟨x, as ++ bs, t, hx, hperm, fun y hy he => ?_, ha, rfl, fun hid => ?_⟩
  · have hdistinct := hperm.pairwise hs.distinct Ne.symm
    exact (List.pairwise_cons.1 hdistinct).1 y hy he.symm
  · have hd := domains_setDomain hm hs.distinct hid
    simp only [hd]
    exact List.perm_middle

namespace Acting

variable {α : Type} {a : Act α} {r : Except Stop α} {x : Domain} {others : List Domain} {t : Active}

theorem safe_iff (h : Acting m m' a r x others t) (hid : t.domain.id = x.id) :
    m'.Safe ↔ t.world.heap.Safe (t.domain :: others) := by
  rw [Safe, h.world, Heap.safe_perm (h.domains hid)]

/-- The marks of a domain are queued by the domain itself. -/
theorem own (h : Acting m m' a r x others t) (hm : m.MarksQueued) (b : BlockId)
    (hb : m.world.heap.owner? b = some x.id) : b ∈ x.remembered.queue := by
  obtain ⟨y, hy, hid, hq⟩ := hm b x.id hb
  rcases List.mem_cons.1 (h.perm.mem_iff.1 hy) with rfl | hy
  · exact hq
  · exact absurd hid (h.distinct y hy)

end Acting

end Machine

end FiberStacks
