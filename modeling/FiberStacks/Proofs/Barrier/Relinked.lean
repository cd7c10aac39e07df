import FiberStacks.Proofs.Barrier.Calls
import FiberStacks.Proofs.Barrier.ChainMarks

/-!
# Parent links and the barrier

Resuming a chain and turning one round write parent links of stacks that no domain runs on, and mark none of them.  A
stack that gets a young parent is seen only if it is young itself, or marked and queued already.

* `Heap.Covered` — the stacks a minor pass looks at;
* `Heap.safeAt_setParent`, `Heap.safe_hang_iff` — a parent link set, and a chain hung on the current stack;
* `Heap.safe_reverseWithin` — the links of a chain turned round, by induction along the chain;
* `Machine.safe_relinked_iff` — **exactly when resuming a chain and turning one round keep a machine safe**.
-/

namespace FiberStacks

open FiberStacks.Action

variable {others : List Domain} {s t : Active}

namespace Heap

variable {h h' : Heap} {b c p : BlockId} {x : Segment} {ds : List Domain} {l : List BlockId}

/-- **A minor pass looks at the stack**: it is young, a domain runs on it, or it is marked and queued. -/
def Covered (h : Heap) (ds : List Domain) (b : BlockId) : Prop := h.isYoung b = true ∨ RunOn ds b ∨ h.Queued ds b

instance : Decidable (h.Covered ds b) :=
  inferInstanceAs (Decidable (h.isYoung b = true ∨ RunOn ds b ∨ h.Queued ds b))

theorem covered_congr (hg : ∀ c, h'.generation? c = h.generation? c) (ho : h'.owner? b = h.owner? b) :
    h'.Covered ds b ↔ h.Covered ds b := by
  simp only [Covered, isYoung, hg, Queued, ho]

theorem covered_perm {ds' : List Domain} (hp : ds.Perm ds') : h.Covered ds b ↔ h.Covered ds' b := by
  simp only [Covered, RunOn, Queued, hp.mem_iff]

theorem owner?_setParent (hx : h.stack? b = some x) (p : Option BlockId) (c : BlockId) :
    (h.setStack b (x.setParent p)).owner? c = h.owner? c := by
  by_cases hc : c = b
  · rw [hc, owner?_setStack_self hx, owner?_of_stack? hx]
    rfl
  · exact owner?_setStack_of_ne hc

theorem covered_setParent (hx : h.stack? b = some x) (p : Option BlockId) (c : BlockId) :
    (h.setStack b (x.setParent p)).Covered ds c ↔ h.Covered ds c :=
  covered_congr (generation?_setStack h b · _) (owner?_setParent hx p c)

/-- **A stack gets a parent.**  If that is young, the stack has to be one that is looked at. -/
theorem safeAt_setParent (hs : h.SafeAt ds b) (hx : h.stack? b = some x) (p : BlockId) :
    (h.setStack b (x.setParent (some p))).SafeAt ds b ↔ (h.isYoung p = true → h.Covered ds b) := by
  obtain ⟨g, hcell⟩ := cell?_of_stack? hx
  constructor
  · intro hsafe hp
    cases g with
    | young => exact .inl (by simp [isYoung, generation?, hcell])
    | old =>
      have he : (h.setStack b (x.setParent (some p))).Exposed b :=
        (exposed_setStack_self hcell).2 ⟨rfl, p, Segment.mem_references.2 (.inr (Segment.parent?_setParent x _)), hp⟩
      exact .inr (by simpa only [Queued, owner?_setParent hx] using hsafe he)
  · intro hp he
    obtain ⟨rfl, c, hc, hyoung⟩ := (exposed_setStack_self hcell).1 he
    rw [Segment.mem_references, Segment.held_setParent, Segment.parent?_setParent] at hc
    simp only [Queued, owner?_setParent hx]
    rcases hc with hc | hc
    · exact hs ⟨x, hcell, c, Segment.mem_references.2 (.inl hc), hyoung⟩
    · rw [← Option.some.inj hc] at hyoung
      exact (hp hyoung).resolve_left (by simp [isYoung, generation?, hcell])

/-- **A stack is hung on the current one.**  The stacks a domain neither leaves nor goes to are seen then exactly if
the one hung up is looked at, or is one of these two, or the current one is not young. -/
theorem safe_hang_iff {d : Domain} {others : List Domain} {tail current : BlockId} (hs : h.Safe (d :: others))
    (hx : h.stack? tail = some x) (hcur : d.current? = some current) (head : BlockId) :
    (∀ c, c ≠ current → c ≠ head → (h.setStack tail (x.setParent (some current))).SafeAt (d :: others) c) ↔
      h.isYoung current = false ∨ tail = head ∨ h.Covered (d :: others) tail := by
  have hself := safeAt_setParent (hs tail) hx current
  constructor
  · intro hsafe
    by_cases hhead : tail = head
    · exact .inr (.inl hhead)
    by_cases hcurrent : tail = current
    · exact .inr (.inr (.inr (.inl ⟨d, List.mem_cons_self, hcurrent ▸ hcur⟩)))
    cases hyoung : h.isYoung current with
    | false => exact .inl rfl
    | true => exact .inr (.inr (hself.1 (hsafe tail hcurrent hhead) hyoung))
  · intro hend c _ hhead
    by_cases hct : c = tail
    · subst hct
      refine hself.2 fun hyoung => ?_
      rcases hend with hold | he | hcovered
      · exact absurd (hold.symm.trans hyoung) (by simp)
      · exact absurd he hhead
      · exact hcovered
    · exact (safeAt_setStack hct).2 (hs c)

/-- **The links of a chain turned round.**  Every stack of the chain gets the one before it as its parent. -/
theorem safe_reverseWithin {stack last : BlockId} : ∀ {n : Nat} {h h' : Heap} {p b : BlockId} {l : List BlockId},
    h.links.IsChain b l → (∀ c ∈ l, h.SafeAt ds c) → reverseWithin stack n h p (some b) = .ok (last, h') →
    (h'.Safe ds ↔ (∀ c ∉ l, h.SafeAt ds c) ∧
      List.IsChain (fun q c => h.isYoung q = true → h.Covered ds c) (p :: l)) := by
  intro n
  induction n with
  | zero => intro h h' p b l _ _ hr; cases hr
  | succ n ih =>
    intro h h' p b l hc hl hr
    obtain ⟨x, hx, hr⟩ := bind_eq_ok_iff.1 hr
    have hx := stack_eq_ok_iff.1 hx
    have hself := safeAt_setParent (hl b hc.mem) hx p
    have hother : ∀ c, c ≠ b → ((h.setStack b (x.setParent (some p))).SafeAt ds c ↔ h.SafeAt ds c) :=
      fun c => safeAt_setStack
    have hlink := links_of_stack? hx
    cases hc with
    | last hb =>
      have hp : x.parent? = none := Option.some.inj (hlink.symm.trans hb)
      rw [hp] at hr
      obtain rfl : h.setStack b (x.setParent (some p)) = h' := by
        cases n <;> exact (Prod.mk.inj (Except.ok.inj hr)).2
      rw [List.isChain_cons_cons, and_iff_left (List.IsChain.singleton b), ← hself]
      constructor
      · exact fun hsafe => ⟨fun c hc => (hother c (by simpa using hc)).1 (hsafe c), hsafe b⟩
      · rintro ⟨hrest, hb⟩ c
        by_cases hcb : c = b
        · exact hcb ▸ hb
        · exact (hother c hcb).2 (hrest c (by simpa using hcb))
    | @cons _ q rest hb hp =>
      have hpar : x.parent? = some q := Option.some.inj (hlink.symm.trans hb)
      rw [hpar] at hr
      have hmem : b ∉ rest := (List.nodup_cons.1 (Links.IsChain.cons hb hp).nodup).1
      have hp' : (h.setStack b (x.setParent (some p))).links.IsChain q rest := by
        rw [links_setStack hx]
        exact hp.set_of_notMem hmem _
      have hrest : ∀ c ∈ rest, (h.setStack b (x.setParent (some p))).SafeAt ds c := fun c hc =>
        (hother c (ne_of_mem_of_not_mem hc hmem)).2 (hl c (List.mem_cons_of_mem _ hc))
      rw [ih hp' hrest hr, List.isChain_cons_cons, ← hself]
      simp only [isYoung_setStack, covered_setParent hx]
      rw [← and_assoc (b := SafeAt _ ds b)]
      refine and_congr_left fun _ => ⟨fun hsafe => ⟨fun c hc => ?_, hsafe b hmem⟩, fun ⟨hout, hb⟩ c hc => ?_⟩
      · rw [List.mem_cons, not_or] at hc
        exact (hother c hc.1).1 (hsafe c hc.2)
      · by_cases hcb : c = b
        · exact hcb ▸ hb
        · exact (hother c hcb).2 (hout c (by simp [hcb, hc]))

/-- **Turning a chain round** keeps a safe heap safe exactly if every stack that gets a young parent is looked at. -/
theorem safe_reverseChain_iff {current last : BlockId} (hs : h.Safe ds) (hl : h.chain b = .ok l)
    (hr : h.reverseChain current b = .ok (last, h')) :
    h'.Safe ds ↔ List.IsChain (fun q c => h.isYoung q = true → h.Covered ds c) (current :: l) := by
  rw [safe_reverseWithin (chain_eq_ok_iff.1 hl) (fun c _ => hs c) hr, and_iff_right fun c _ => hs c]

end Heap

namespace Act

/-! ### Resuming -/

theorem takeHead_elsewhere {h h' : Heap} {k head : BlockId} (ht : h.takeHead k = .ok (head, h')) :
    (∀ c, h'.generation? c = h.generation? c) ∧ ∀ c, h'.stack? c = h.stack? c := by
  obtain ⟨c, c', hk, rfl⟩ := takeHead_eq_set ht
  exact ⟨fun b => Heap.generation?_set h k b _, Heap.stack?_setCapsule hk⟩

/-- **A switch away from a stack that may be left** leaves everything as safe as it was, but the stack left and the
one the domain runs on then. -/
theorem switchStack_safe_iff (hf : s.world.heap.FreeListed)
    (hown : ∀ c, s.world.heap.owner? c = some s.domain.id → c ∈ s.domain.remembered.queue) {b target : BlockId}
    (hb : s.domain.current? = some b) :
    (switchStack target).wp s (fun _ t => t.world.heap.Safe (t.domain :: others) ↔
      ∀ c, c ≠ b → c ≠ target → s.world.heap.SafeAt (s.domain :: others) c) fun _ _ => True := by
  unfold switchStack guardBlocking
  simp only [wp_bind, wp_domain, wp_require]
  refine ⟨fun _ => wp_mono (saveStack_seen others hf hown) ?_ fun _ _ _ => trivial, fun _ => trivial⟩
  rintro _ t ⟨hb', he, hseen⟩
  obtain rfl := Option.some.inj (hb.symm.trans hb')
  simp only [wp_loadStack, wp_pure]
  refine ⟨fun x _ => ?_, fun _ => trivial⟩
  have hload : ∀ c, c ≠ b → (t.world.heap.SafeAt
      ({ t.domain with registers := some ⟨target, x.used, x.capacity⟩ } :: others) c ↔
        c = target ∨ s.world.heap.SafeAt (s.domain :: others) c) := fun c hc => by
    rw [safeAt_load, he.safeAt hc]
    rw [he.current?, hb]
    exact fun h => hc (Option.some.inj h).symm
  constructor
  · exact fun hsafe c hc hct => ((hload c hc).1 (hsafe c)).resolve_left hct
  · intro hsafe c
    by_cases hc : c = b
    · exact hc ▸ hseen.safeAt_load
    · exact (hload c hc).2 (or_iff_not_imp_left.2 (hsafe c hc))

/-- **Resuming a capsule** keeps everything safe exactly if the last stack of the chain, which gets the current one as
its parent, is looked at or run on, or the current one is not young. -/
theorem resume_safe_iff (hs : s.world.heap.Safe (s.domain :: others)) (hf : s.world.heap.FreeListed)
    (hown : ∀ c, s.world.heap.owner? c = some s.domain.id → c ∈ s.domain.remembered.queue) {k head tail : BlockId}
    {r : Registers} {l : List BlockId} (hr : s.domain.registers = some r) (hk : s.world.heap.fullHead k = .ok head)
    (hl : s.world.heap.chain head = .ok l) (htail : l.getLast? = some tail) :
    (resume k).wp s (fun _ t => t.world.heap.Safe (t.domain :: others) ↔
      s.world.heap.isYoung r.current = false ∨ tail = head ∨ s.world.heap.Covered (s.domain :: others) tail)
      fun _ _ => True := by
  have hcur : s.domain.current? = some r.current := Domain.current?_of_registers hr
  unfold resume takeHead
  simp only [wp_bind, wp_heap]
  cases ht : s.world.heap.takeHead k with
  | error e => exact absurd hk (takeHead_eq_error ht head)
  | ok p =>
    obtain ⟨head', h₁⟩ := p
    obtain ⟨hk', hq⟩ := takeHead_eq_ok ht
    obtain rfl := Except.ok.inj (hk.symm.trans hk')
    obtain ⟨hg, hstack⟩ := takeHead_elsewhere ht
    have hl₁ : h₁.chain head = .ok l := by
      rw [Heap.chain_eq_ok_iff, hq.links hf]
      exact Heap.chain_eq_ok_iff.1 hl
    have howner : ∀ c, h₁.owner? c = s.world.heap.owner? c := fun c => by rw [Heap.owner?, hstack]; rfl
    have hs₁ : h₁.Safe (s.domain :: others) := fun c => (Heap.safeAt_congr hg (hstack c)).2 (hs c)
    simp only [wp_bind, wp_setHeap, wp_pure]
    refine wp_registers_of hr ?_
    rw [World.heap_adopt, hl₁, wp_check_ok]
    simp only [htail, wp_bind, wp_heap, wp_check, wp_setHeap, World.heap_adopt]
    refine ⟨fun h₂ hrel => ?_, fun _ _ => trivial⟩
    obtain ⟨x, hx, rfl⟩ := Heap.relink_eq_ok hrel
    have hf₂ : (h₁.setStack tail (x.setParent (some r.current))).FreeListed := (hq.freeListed hf).set tail _
    have hhang := Heap.safe_hang_iff hs₁ hx hcur head
    rw [Heap.covered_congr hg (howner tail), Heap.isYoung, hg, ← Heap.isYoung] at hhang
    refine wp_mono (@switchStack_safe_iff others _ hf₂ (fun c hc => ?_) _ _ hcur) (fun _ t ht => ht.trans hhang)
      fun _ _ h => h
    exact hown c (by simpa only [World.heap_adopt, Heap.owner?_setParent hx, howner] using hc)

end Act

namespace Machine

/-- **Exactly when relinking keeps a machine safe.**  Resuming a capsule does if the current stack is not young, or the
last stack of the chain is its head or is one a minor pass looks at; turning a chain round does if every stack that gets
a young parent is one a minor pass looks at. -/
theorem safe_relinked_iff {m : Machine} {d : DomainId} {x : Domain} {r : Registers} (hs : m.Sound) (hsafe : m.Safe)
    (hmarks : m.MarksQueued) (hx : m.domain? d = some x) (hr : x.registers = some r) :
    (∀ k head tail l previous m', m.world.heap.fullHead k = .ok head → m.world.heap.chain head = .ok l →
      l.getLast? = some tail → m.act d (Act.resume k) = some (.ok previous, m') →
      (m'.Safe ↔ m.world.heap.isYoung r.current = false ∨ tail = head ∨ m.world.heap.Covered m.domains tail)) ∧
    ∀ b l last m', m.world.heap.chain b = .ok l → m.act d (Act.findPerformer b) = some (.ok last, m') →
      (m'.Safe ↔ List.IsChain (fun q c => m.world.heap.isYoung q = true → m.world.heap.Covered m.domains c)
        (r.current :: l)) := by
  refine ⟨fun k head tail l previous m' hk hl htail h => ?_, fun b l last m' hl h => ?_⟩
  · obtain ⟨x', others, t, hx', hact⟩ := acting hs h
    obtain rfl := Option.some.inj (hx.symm.trans hx')
    rw [hact.safe_iff (hact.marking hs (Act.advances_resume k)).id, Heap.covered_perm hact.perm]
    have hresume := Act.resume_safe_iff (s := ⟨x, m.world⟩) ((Heap.safe_perm hact.perm).1 hsafe) hs.freeListed
      (hact.own hmarks) hr hk hl htail
    exact (wp_of_ok hact.run).1 hresume
  · obtain ⟨x', others, t, hx', hact⟩ := acting hs h
    obtain rfl := Option.some.inj (hx.symm.trans hx')
    rw [hact.safe_iff (hact.marking hs (Act.advances_findPerformer b)).id]
    simp only [Heap.covered_perm hact.perm]
    have hturn : (Act.findPerformer b).wp ⟨x, m.world⟩ (fun _ t => t.world.heap.Safe (t.domain :: others) ↔
        List.IsChain (fun q c => m.world.heap.isYoung q = true → m.world.heap.Covered (x :: others) c)
          (r.current :: l)) fun _ _ => True := by
      unfold Act.findPerformer
      rw [wp_bind]
      refine Act.wp_registers_of hr ?_
      simp only [wp_bind, Act.wp_heap, Act.wp_check, Act.wp_setHeap, wp_pure]
      refine ⟨fun p hp => ?_, fun _ _ => trivial⟩
      exact Heap.safe_reverseChain_iff ((Heap.safe_perm hact.perm).1 hsafe) hl hp
    exact (wp_of_ok hact.run).1 hturn

/-- A domain on a young stack, and a capsule over a young stack and behind it an old one, which is marked and queued
or not. -/
def overChain (marked : Bool) : Machine where
  world := .initial {} .bytecode { Heap.empty 100 100 with
    cells := [some ⟨.young, .stack (.blank 1 .zero)⟩,
      some ⟨.young, .stack ((Segment.blank 1 .zero).setParent (some ⟨2⟩))⟩,
      some ⟨.old, .stack { Segment.blank 1 .zero with owner := if marked then some ⟨1⟩ else none }⟩,
      some ⟨.young, .capsule (.full ⟨1⟩)⟩]
    liveWords := 23 }
  domains := [{ Domain.fresh ⟨1⟩ 100 with
    registers := some ⟨⟨0⟩, 0, 1⟩
    remembered := ⟨if marked then [⟨2⟩] else []⟩ }]

theorem overChain_spec (marked : Bool) :
    (overChain marked).Sound ∧ (overChain marked).Safe ∧ (overChain marked).MarksQueued := by
  refine ⟨sound_of_freeList rfl (List.pairwise_singleton ..), Heap.safe_of_liveStacks ?_, marksQueued_of_liveStacks ?_⟩
  · cases marked <;> decide
  · cases marked <;> decide

/-- Relinking a chain whose old stack is queued. -/
theorem safe_relinked_overChain :
    (overChain true).Sound ∧ (overChain true).Safe ∧ (overChain true).MarksQueued ∧
      (∃ p m', (overChain true).act ⟨1⟩ (Act.resume ⟨3⟩) = some (.ok p, m') ∧ m'.Safe) ∧
      ∃ p m', (overChain true).act ⟨1⟩ (Act.findPerformer ⟨1⟩) = some (.ok p, m') ∧ m'.Safe := by
  obtain ⟨hs, hsafe, hmarks⟩ := overChain_spec true
  obtain ⟨hresume, hturn⟩ := safe_relinked_iff (d := ⟨1⟩) hs hsafe hmarks rfl rfl
  refine ⟨hs, hsafe, hmarks, ⟨_, _, rfl, ?_⟩, _, _, rfl, ?_⟩
  · exact (hresume ⟨3⟩ ⟨1⟩ ⟨2⟩ [⟨1⟩, ⟨2⟩] _ _ rfl rfl rfl rfl).2 (.inr (.inr (by decide)))
  · exact (hturn ⟨1⟩ [⟨1⟩, ⟨2⟩] _ _ rfl rfl).2 (by decide)

/-- **Relinking a chain can leave an old stack unseen that refers to a young one.** -/
theorem not_safe_relinked :
    (¬ ∀ (m m' : Machine) (d : DomainId) (k p : BlockId), m.Sound → m.Safe → m.MarksQueued →
      m.act d (Act.resume k) = some (.ok p, m') → m'.Safe) ∧
    ¬ ∀ (m m' : Machine) (d : DomainId) (b p : BlockId), m.Sound → m.Safe → m.MarksQueued →
      m.act d (Act.findPerformer b) = some (.ok p, m') → m'.Safe := by
  obtain ⟨hs, hsafe, hmarks⟩ := overChain_spec false
  constructor
  · intro h
    have hunseen := h (overChain false) _ ⟨1⟩ ⟨3⟩ _ hs hsafe hmarks rfl ⟨2⟩
    revert hunseen
    decide
  · intro h
    have hunseen := h (overChain false) _ ⟨1⟩ ⟨1⟩ _ hs hsafe hmarks rfl ⟨2⟩
    revert hunseen
    decide

end Machine

end FiberStacks
