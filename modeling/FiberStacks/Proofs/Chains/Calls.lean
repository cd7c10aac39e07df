import FiberStacks.Proofs.Chains.Actions
import FiberStacks.Proofs.Chains.Copy
import FiberStacks.Proofs.Chains.Turned

/-!
# Calls and chains

When the calls that switch, grow, capture, clone and resume stacks leave every chain with an end.

* `Call` — the calls, with their arguments;
* `Call.Apart` — what a call asks of the chains it joins: resuming a capsule, and turning a chain round, need a
  current stack whose chain ends and shares no stack with the other one;
* `chainsEnd_iff_apart` — **a call leaves every chain with an end exactly if it joins chains that are apart**.

A capsule over the running stack, or over a chain that has it among its stacks, is not apart from it.
-/

namespace FiberStacks

namespace Act

open FiberStacks.Action

variable {α : Type} {s t : Active}

/-! ### Resuming -/

/-- What resuming a capsule asks for: the chain it holds is apart from that of the current stack. -/
def ResumeApart (k : BlockId) (s : Active) : Prop :=
  ∀ head r l, s.world.heap.fullHead k = .ok head → s.domain.registers = some r →
    s.world.heap.chain head = .ok l → ∃ lc, s.world.heap.chain r.current = .ok lc ∧ lc.Disjoint l

theorem takeHead_eq_ok {h h' : Heap} {k head : BlockId} (ht : h.takeHead k = .ok (head, h')) :
    h.fullHead k = .ok head ∧ h.Quiet h' := by
  unfold Heap.takeHead at ht
  unfold Heap.fullHead
  cases hk : h.capsule? k with
  | none => simp [hk] at ht
  | some c =>
    cases c with
    | full b =>
      simp only [hk, Capsule.take, Capsule.fullHead, Except.map, Except.mapError, Except.ok.injEq,
        Prod.mk.injEq] at ht ⊢
      exact ⟨ht.1, ht.2 ▸ Heap.quiet_setCapsule hk⟩
    | _ => simp [hk, Capsule.take, Capsule.fullHead, Except.map, Except.mapError] at ht

theorem takeHead_eq_set {h h' : Heap} {k head : BlockId} (ht : h.takeHead k = .ok (head, h')) :
    ∃ c c', h.capsule? k = some c ∧ h' = h.set k (.capsule c') := by
  unfold Heap.takeHead at ht
  split at ht
  · cases ht
  · next c hk =>
    cases hc : c.take with
    | error e => simp [hc, Except.mapError, Except.map] at ht
    | ok q =>
      simp only [hc, Except.mapError, Except.map, Except.ok.injEq] at ht
      exact ⟨c, q.2, hk, (Prod.mk.inj ht).2.symm⟩

theorem takeHead_eq_error {h : Heap} {k : BlockId} {e : Failure} (ht : h.takeHead k = .error e) (head : BlockId) :
    h.fullHead k ≠ .ok head := by
  unfold Heap.takeHead at ht
  unfold Heap.fullHead
  cases hk : h.capsule? k with
  | none => simp
  | some c => cases c <;> simp_all [Capsule.take, Capsule.fullHead, Except.map, Except.mapError]

theorem raiseFailure_keepsLinks (f : Failure) :
    (raiseFailure f : Act α).wp s (fun _ _ => False) fun _ t => KeepsLinks s t :=
  wp_mono (wp_and (quiet_of_beside (beside_raiseFailure f) s) (stops_raiseFailure f s)) (fun _ _ h => h.2)
    fun _ _ h => h.1

theorem quiet_takeHead (k : BlockId) : (takeHead k).Quiet := by
  intro s
  unfold takeHead
  simp only [wp_bind, wp_heap]
  cases ht : s.world.heap.takeHead k with
  | error e => exact quiet_of_beside (beside_raiseFailure e) s
  | ok p => exact (takeHead_eq_ok ht).2

/-- The arena has not shrunk. -/
def KeepsCells (s t : Active) : Prop := s.world.heap.capacity ≤ t.world.heap.capacity

theorem resume_keepsCells (k : BlockId) : (resume k).Relates KeepsCells := by
  have quiet {β : Type} {a : Act β} (ha : a.Quiet) : a.Relates KeepsCells := fun s =>
    wp_mono (ha s) (fun _ _ h => h.capacity) fun _ _ h => h.capacity
  have bind {β γ : Type} {a : Act β} {f : β → Act γ} (ha : a.Relates KeepsCells)
      (hf : ∀ x, (f x).Relates KeepsCells) : (a >>= f).Relates KeepsCells :=
    Relates.bind (R := KeepsCells) (fun h h' => Nat.le_trans h h') ha hf
  refine bind (quiet (quiet_takeHead k)) fun head => bind (quiet (quiet_of_beside beside_registers)) fun r => ?_
  refine bind (quiet (quiet_of_beside beside_heap)) fun h =>
    bind (quiet (quiet_of_beside (beside_check (h.placed_chain head)))) fun l => ?_
  have hswitch : (switchStack head).Relates KeepsCells := quiet (handling_quiet.switchStack head)
  simp only
  split
  · exact hswitch
  · intro s
    simp only [wp_bind, wp_heap, wp_check, wp_setHeap]
    refine ⟨fun h hr => ?_, fun _ _ => Nat.le_refl _⟩
    have hle : s.world.heap.capacity ≤ h.capacity := (Heap.capacity_relink hr).ge
    exact wp_mono (hswitch _) (fun _ _ h => hle.trans h) fun _ _ h => hle.trans h

/-- **Resuming a capsule**: all links lead to an end afterwards exactly if its chain is apart from the current one. -/
theorem resume_spec (k : BlockId) (hf : s.world.heap.FreeListed) (hL : s.world.heap.links.Ending) :
    (resume k s).2.world.heap.links.Ending ↔ ResumeApart k s := by
  refine wp_iff_snd (P := fun t => t.world.heap.links.Ending ↔ ResumeApart k s).1 ?_
  -- where nothing is linked, there has to be nothing to ask for
  have quiet : ∀ t, KeepsLinks s t → ResumeApart k s → (t.world.heap.links.Ending ↔ ResumeApart k s) :=
    fun t ht ha => iff_of_true ((ht.links hf).symm ▸ hL) ha
  unfold resume takeHead
  simp only [wp_bind, wp_heap]
  cases ht : s.world.heap.takeHead k with
  | error e =>
    have hnone : ResumeApart k s := fun head _ _ hk => absurd hk (takeHead_eq_error ht head)
    exact wp_of_stops (raiseFailure_keepsLinks e) fun _ t h => quiet t h hnone
  | ok p =>
    obtain ⟨head, h₁⟩ := p
    obtain ⟨hk, hq⟩ := takeHead_eq_ok ht
    have hf₁ := hq.freeListed hf
    have hl₁ := hq.links hf
    simp only [wp_bind, wp_setHeap, wp_pure, wp_registers]
    have quiet₁ := quiet { s with world := s.world.adopt h₁ } hq
    refine ⟨fun r hr => ?_, fun hnone => quiet₁ fun _ _ _ _ hr => absurd (hnone.symm.trans hr) (by simp)⟩
    simp only [World.heap_adopt, wp_check]
    refine ⟨fun l hc => ?_, fun f hc => quiet₁ fun head' _ l hk' _ hl => ?_⟩
    · have hchain := Heap.chain_eq_ok_iff.1 hc
      obtain ⟨last, h₂, hlast, hrelink, hf₂, hhang⟩ := Heap.relink_last_spec hf₁ (hl₁.symm ▸ hL) hchain r.current
      have happly : (∃ lc, h₁.links.IsChain r.current lc ∧ lc.Disjoint l) ↔ ResumeApart k s := by
        unfold ResumeApart
        simp only [Heap.chain_eq_ok_iff]
        rw [hl₁] at hchain ⊢
        constructor
        · intro h head' r' l' hk' hr' hc'
          obtain rfl := Except.ok.inj (hk.symm.trans hk')
          obtain rfl := Option.some.inj (hr.symm.trans hr')
          exact hchain.unique hc' ▸ h
        · exact fun h => h head r l hk hr hchain
      simp only [hlast, wp_bind, wp_heap, World.heap_adopt, hrelink, wp_check_ok, wp_setHeap]
      have hswitch : ∀ t, KeepsLinks { s with world := (s.world.adopt h₁).adopt h₂ } t →
          (t.world.heap.links.Ending ↔ ResumeApart k s) :=
        fun t h => (h.links hf₂).symm ▸ hhang.trans happly
      exact wp_mono (handling_quiet.switchStack head _) (fun _ t h => hswitch t h) fun _ t h => hswitch t h
    · -- the head is the same, and so is its chain
      obtain rfl := Except.ok.inj (hk.symm.trans hk')
      have hl' := Heap.chain_eq_ok_iff.2 (hl₁.symm ▸ Heap.chain_eq_ok_iff.1 hl)
      exact absurd (hl'.symm.trans hc) (by simp)

/-! ### Cloning -/

/-- What a clone leaves: the links of before, and a capsule over new stacks; the current stack was a live one. -/
structure Cloned (s : Active) (k : BlockId) (t : Active) : Prop where
  registers : t.domain.registers = s.domain.registers
  current : ∀ r, s.domain.registers = some r → (s.world.heap.links r.current).isSome
  copies : ∃ c cs, Heap.Copying s.world.heap.links t.world.heap (c :: cs) [] ∧ t.world.heap.fullHead k = .ok c

theorem syncStack_live : syncStack.wp s (fun _ t => KeepsLinks s t ∧ t.domain = s.domain ∧
    ∀ r, s.domain.registers = some r → (s.world.heap.links r.current).isSome) fun _ t => KeepsLinks s t := by
  refine wp_mono (wp_and (handling_quiet.syncStack s) (?_ : syncStack.wp s (fun _ t => t.domain = s.domain ∧
    ∀ r, s.domain.registers = some r → (s.world.heap.links r.current).isSome) fun _ _ => True))
    (fun _ _ h => h) fun _ _ h => h.1
  refine wp_syncStack_of (fun hnone => ⟨rfl, fun r hr => ?_⟩) (fun r x _ hr hx _ => ⟨rfl, fun r' hr' => ?_⟩)
    fun _ => trivial
  · cases hnone.symm.trans hr
  · obtain rfl := Option.some.inj (hr.symm.trans hr')
    simp [Heap.links_of_stack? hx]

/-- **Cloning a capsule.** -/
theorem cloneContinuation_spec (k : BlockId) (hf : s.world.heap.FreeListed) (hL : s.world.heap.links.Ending) :
    (cloneContinuation k).wp s
      (fun k' t => t.world.heap.capacity ≤ 2 ^ 32 → Cloned s k' t ∧ t.world.heap.links.Ending)
      fun _ t => t.world.heap.capacity ≤ 2 ^ 32 → t.world.heap.links.Ending := by
  unfold cloneContinuation
  rw [wp_bind]
  refine wp_mono syncStack_live ?_ fun _ t hq _ => (hq.links hf).symm ▸ hL
  rintro - t ⟨hq, hd, hr⟩
  have hf' := hq.freeListed hf
  have hl' := hq.links hf
  simp only [wp_bind, wp_heap, wp_check]
  refine ⟨fun p hp => ?_, fun _ _ _ => hl'.symm ▸ hL⟩
  obtain ⟨r, h'⟩ := p
  rw [wp_setHeap]
  cases r with
  | error e =>
    refine wp_of_stops (raiseFailure_keepsLinks e) fun _ u hu hcap => ?_
    obtain ⟨-, hf'', hl''⟩ := Heap.cloneChain_spec hf' hp (hu.capacity.trans hcap)
    rw [hu.links hf'']
    exact hl''.symm ▸ hl'.symm ▸ hL
  | ok k' =>
    intro hcap
    obtain ⟨-, c, cs, hc, hk⟩ := Heap.cloneChain_spec hf' hp hcap
    rw [hl'] at hc
    exact ⟨⟨congrArg Domain.registers hd, hr, c, cs, hc, hk⟩, hc.ending hL⟩

/-- **Resuming a clone**: a chain of new stacks is apart from that of the current one. -/
theorem resumeCloned_spec (k : BlockId) (hf : s.world.heap.FreeListed) (hL : s.world.heap.links.Ending)
    (hids : (resumeCloned k s).2.world.heap.capacity ≤ 2 ^ 32) :
    (resumeCloned k s).2.world.heap.links.Ending := by
  refine wp_iff_snd (P := fun t => t.world.heap.capacity ≤ 2 ^ 32 → t.world.heap.links.Ending).1 ?_ hids
  unfold resumeCloned
  rw [wp_bind]
  refine wp_mono (cloneContinuation_spec k hf hL) (fun k' t ht => ?_) fun _ _ h => h
  refine wp_iff_snd.2 fun hcap => ?_
  have hcap' := wp_iff_snd.1 (resume_keepsCells k' t)
  obtain ⟨hcloned, hL'⟩ := ht (hcap'.trans hcap)
  obtain ⟨c, cs, hc, hk⟩ := hcloned.copies
  refine (resume_spec k' hc.freeListed hL').2 fun head r l hk' hr hl => ?_
  obtain rfl := Except.ok.inj (hk.symm.trans hk')
  obtain ⟨lc, hlc⟩ := hL r.current (hcloned.current r (hcloned.registers ▸ hr))
  refine ⟨lc, Heap.chain_eq_ok_iff.2 (hc.isChain hlc), fun x hx hx' => ?_⟩
  -- the stacks of the clone were no stacks before
  rw [(Heap.chain_eq_ok_iff.1 hl).unique (hc.chain c rfl), List.append_nil] at hx'
  have hlive := hlc.live x hx
  rw [hc.fresh x hx'] at hlive
  cases hlive

end Act

/-! ### All calls -/

/-- The calls that switch, grow, capture, clone and resume stacks. -/
inductive Call where
  | switch (target : BlockId)
  | grow (required : Nat) (saved : List Word)
  | push (w : Word)
  | capture (head : BlockId)
  | clone (k : BlockId)
  | resume (k : BlockId)
  | resumeCloned (k : BlockId)
  /-- Turn a chain round so that it ends in the current stack. -/
  | findPerformer (b : BlockId)
  /-- Turn a chain round so that it ends in some stack. -/
  | findPerformerOn (current b : BlockId)

namespace Call

open FiberStacks.Action

/-- What a call does; its result is not looked at. -/
def act : Call → Act Unit
  | switch target => do let _ ← Act.switchStack target
  | grow required saved => do let _ ← Act.grow required saved
  | push w => Act.push w
  | capture head => do
    match (← Act.heap).capture head with
    | .error _ => return
    | .ok (_, h) => Act.setHeap h
  | clone k => do let _ ← Act.cloneContinuation k
  | resume k => do let _ ← Act.resume k
  | resumeCloned k => do let _ ← Act.resumeCloned k
  | findPerformer b => do let _ ← Act.findPerformer b
  | findPerformerOn current b => do
    let (_, h) ← Act.check ((← Act.heap).reverseChain current b)
    Act.setHeap h

/-- What turning a chain round asks for: the chain of the stack it is turned onto ends and is apart from it. -/
def TurnApart (current b : BlockId) (h : Heap) : Prop :=
  ∀ l, h.chain b = .ok l → ∃ lc, h.chain current = .ok lc ∧ lc.Disjoint l

/-- **What a call asks of the chains it joins.** -/
def Apart (s : Active) : Call → Prop
  | resume k => Act.ResumeApart k s
  | findPerformer b => ∀ r, s.domain.registers = some r → TurnApart r.current b s.world.heap
  | findPerformerOn current b => TurnApart current b s.world.heap
  | _ => True

def Copies : Call → Prop
  | clone _ | resumeCloned _ => True
  | _ => False

theorem snd_discard {α : Type} (a : Act α) (s : Active) : ((do let _ ← a : Act Unit) s).2 = (a s).2 := by
  change ((a >>= fun _ => pure ()) s).2 = _
  rw [bind_apply]
  rcases a s with ⟨_ | _, _⟩ <;> rfl

theorem quiet_capture (head : BlockId) : (capture head).act.Quiet := by
  intro s
  simp only [act, wp_bind, Act.wp_heap]
  cases hc : s.world.heap.capture head with
  | error e => exact Heap.Quiet.refl _
  | ok p =>
    unfold Heap.capture at hc
    split at hc
    · cases hc
    · cases ha : s.world.heap.alloc (.capsule (.full head)) .normal with
      | error e => simp [ha, Except.mapError] at hc
      | ok q =>
        rw [ha] at hc
        obtain rfl := Except.ok.inj hc
        exact Heap.quiet_alloc ha (by simp)

theorem reverseChain_ending {h : Heap} (current b : BlockId) (hL : h.links.Ending) :
    match h.reverseChain current b with
    | .ok (_, h') => h'.links.Ending ↔ TurnApart current b h
    | .error _ => TurnApart current b h := by
  unfold TurnApart
  simp only [Heap.chain_eq_ok_iff]
  cases hb : h.links b with
  | none =>
    have hstack : h.stack? b = none := by simpa [Heap.links] using hb
    obtain ⟨f, hf⟩ : ∃ f, h.reverseChain current b = .error f := by
      unfold Heap.reverseChain
      cases h.capacity with
      | zero => exact ⟨_, rfl⟩
      | succ n => exact ⟨.notStack b, by simp [Heap.reverseWithin, Heap.stack, hstack, bind, Except.bind]⟩
    rw [hf]
    intro l hl
    simpa [hb] using hl.live b hl.mem
  | some p =>
    obtain ⟨l, hl⟩ := hL b (by simp [hb])
    obtain ⟨last, h', hr, hiff⟩ := Heap.reverseChain_spec current hL hl
    rw [hr]
    exact hiff.trans ⟨fun ha l' hl' => hl.unique hl' ▸ ha, fun ha => ha l hl⟩

theorem clone_ending (k : BlockId) {s : Active} (hf : s.world.heap.FreeListed) (hL : s.world.heap.links.Ending)
    (hids : ((clone k).act s).2.world.heap.capacity ≤ 2 ^ 32) : ((clone k).act s).2.world.heap.links.Ending := by
  rw [act, snd_discard] at hids ⊢
  refine (Act.wp_iff_snd (P := fun t => t.world.heap.capacity ≤ 2 ^ 32 → t.world.heap.links.Ending)).1 ?_ hids
  exact wp_mono (Act.cloneContinuation_spec k hf hL) (fun _ _ h hcap => (h hcap).2) fun _ _ h => h

theorem findPerformer_spec (b : BlockId) {s : Active} (hL : s.world.heap.links.Ending) :
    ((findPerformer b).act s).2.world.heap.links.Ending ↔ (findPerformer b).Apart s := by
  rw [act, snd_discard]
  refine (Act.wp_iff_snd (P := fun t => t.world.heap.links.Ending ↔ (findPerformer b).Apart s)).1 ?_
  unfold Act.findPerformer
  simp only [wp_bind, Act.wp_registers, Act.wp_heap, Act.wp_check, Act.wp_setHeap, wp_pure, World.heap_adopt]
  refine ⟨fun r hreg => ?_, fun hnone => iff_of_true hL fun r hreg => absurd (hnone.symm.trans hreg) (by simp)⟩
  have hiff : (findPerformer b).Apart s ↔ TurnApart r.current b s.world.heap :=
    ⟨fun h => h r hreg, fun h r' hr' => Option.some.inj (hreg.symm.trans hr') ▸ h⟩
  have hturn := reverseChain_ending r.current b hL
  refine ⟨fun p hp => ?_, fun f hp => ?_⟩ <;> rw [hp] at hturn
  · exact hturn.trans hiff.symm
  · exact iff_of_true hL (hiff.2 hturn)

theorem findPerformerOn_spec (current b : BlockId) {s : Active} (hL : s.world.heap.links.Ending) :
    ((findPerformerOn current b).act s).2.world.heap.links.Ending ↔ TurnApart current b s.world.heap := by
  refine (Act.wp_iff_snd (P := fun t => t.world.heap.links.Ending ↔ TurnApart current b s.world.heap)).1 ?_
  simp only [act, wp_bind, Act.wp_heap, Act.wp_check, Act.wp_setHeap]
  have hturn := reverseChain_ending current b hL
  refine ⟨fun p hp => ?_, fun f hp => ?_⟩ <;> rw [hp] at hturn
  · exact hturn
  · exact iff_of_true hL hturn

/-- **When a call leaves every chain with an end**: exactly if the chains it joins are apart.  Copying a chain needs an
identifier for every cell of the heap. -/
theorem chainsEnd_iff_apart (c : Call) {s : Active} (hr : s.world.heap.Reached) (hs : s.world.heap.ChainsEnd)
    (hids : c.Copies → (c.act s).2.world.heap.capacity ≤ 2 ^ 32) :
    (c.act s).2.world.heap.ChainsEnd ↔ c.Apart s := by
  have hf := hr.freeListed
  have hL := Heap.chainsEnd_iff.1 hs
  rw [Heap.chainsEnd_iff]
  cases c with
  | switch target =>
    rw [act, snd_discard]
    exact iff_of_true ((Act.handling_quiet.switchStack target).safe.ending hf hL) trivial
  | grow required saved =>
    rw [act, snd_discard]
    exact iff_of_true ((Act.handling_safe.grow Act.safe_tryGrow required saved).ending hf hL) trivial
  | push w => exact iff_of_true ((Act.safe_push w).ending hf hL) trivial
  | capture head => exact iff_of_true ((quiet_capture head).safe.ending hf hL) trivial
  | clone k => exact iff_of_true (clone_ending k hf hL (hids trivial)) trivial
  | resume k =>
    rw [act, snd_discard]
    exact Act.resume_spec k hf hL
  | resumeCloned k =>
    have hids := hids trivial
    rw [act, snd_discard] at hids ⊢
    exact iff_of_true (Act.resumeCloned_spec k hf hL hids) trivial
  | findPerformer b => exact findPerformer_spec b hL
  | findPerformerOn current b => exact findPerformerOn_spec current b hL

/-! ### The smallest cycle -/

def tiny : Segment := .blank 1 .zero

/-- Two stacks, and a capsule over one of them. -/
def twoStacks (head : BlockId) : Heap :=
  { Heap.empty 100 100 with
    cells := [some ⟨.old, .stack tiny⟩, some ⟨.old, .stack tiny⟩, some ⟨.old, .capsule (.full head)⟩]
    liveWords := 16 }

/-- A domain on the first of the two stacks. -/
def onFirst (head : BlockId) : Active where
  domain := { Domain.fresh ⟨1⟩ 100 with registers := some ⟨⟨0⟩, 0, 1⟩ }
  world := .initial {} .bytecode (twoStacks head)

theorem twoStacks_spec (head : BlockId) : (twoStacks head).Reached ∧ (twoStacks head).ChainsEnd := by
  have root : ∀ {h h' : Heap} {b : BlockId}, h.Reached ∧ h.links.Ending →
      h.alloc (.stack tiny) .quiet = .ok (b, h') → h'.Reached ∧ h'.links.Ending := by
    rintro h h' b ⟨hr, hL⟩ ha
    refine ⟨hr.alloc ha, ?_⟩
    rcases Heap.links_alloc_stack hr.freeListed ha with ⟨-, hl, -⟩ | ⟨-, hl⟩
    · exact hl.symm ▸ hL.cut b
    · exact hl.symm ▸ hL
  have capsule : ∀ {h h' : Heap} {b : BlockId}, h.Reached ∧ h.links.Ending →
      h.alloc (.capsule (.full head)) .quiet = .ok (b, h') → h'.Reached ∧ h'.links.Ending := by
    rintro h h' b ⟨hr, hL⟩ ha
    exact ⟨hr.alloc ha, ((Heap.quiet_alloc ha (by simp)).links hr.freeListed).symm ▸ hL⟩
  have hempty : (Heap.empty 100 100).Reached ∧ (Heap.empty 100 100).links.Ending :=
    ⟨.empty 100 100, fun b hb => by cases hb⟩
  have h := capsule (b := ⟨2⟩) (root (b := ⟨1⟩) (root (b := ⟨0⟩) hempty rfl) rfl) rfl
  exact ⟨h.1, Heap.chainsEnd_iff.2 h.2⟩

/-- Resuming a capsule over another stack, and a clone of one over the running stack. -/
theorem chainsEnd_resume_twoStacks :
    (twoStacks ⟨1⟩).Reached ∧ (twoStacks ⟨1⟩).ChainsEnd ∧ ¬ (resume ⟨2⟩).Copies ∧
      ((resume ⟨2⟩).act (onFirst ⟨1⟩)).2.world.heap.ChainsEnd ∧
      (twoStacks ⟨0⟩).Reached ∧ (twoStacks ⟨0⟩).ChainsEnd ∧
      ((resumeCloned ⟨2⟩).act (onFirst ⟨0⟩)).2.world.heap.capacity ≤ 2 ^ 32 ∧
      ((resumeCloned ⟨2⟩).act (onFirst ⟨0⟩)).2.world.heap.ChainsEnd := by
  obtain ⟨hr₁, hs₁⟩ := twoStacks_spec ⟨1⟩
  obtain ⟨hr₀, hs₀⟩ := twoStacks_spec ⟨0⟩
  have hcopies : ¬ (resume ⟨2⟩).Copies := id
  have hids : ((resumeCloned ⟨2⟩).act (onFirst ⟨0⟩)).2.world.heap.capacity ≤ 2 ^ 32 := by decide
  refine ⟨hr₁, hs₁, hcopies, ?_, hr₀, hs₀, hids, ?_⟩
  · refine (chainsEnd_iff_apart (resume ⟨2⟩) (s := onFirst ⟨1⟩) hr₁ hs₁ fun h => (hcopies h).elim).2 ?_
    intro head r l hk hreg hl
    obtain rfl := Except.ok.inj hk
    obtain rfl := Option.some.inj hreg
    obtain rfl := Except.ok.inj hl
    exact ⟨[⟨0⟩], rfl, by simp⟩
  · exact (chainsEnd_iff_apart (resumeCloned ⟨2⟩) (s := onFirst ⟨0⟩) hr₀ hs₀ fun _ => hids).2 trivial

/-- **A capsule over the running stack can be resumed**, and the stack is its own parent then. -/
theorem not_chainsEnd_resume_current :
    ¬ ∀ (c : Call) (s : Active), s.world.heap.Reached → s.world.heap.ChainsEnd →
      (c.act s).2.world.heap.ChainsEnd := by
  intro h
  obtain ⟨hr, hs⟩ := twoStacks_spec ⟨0⟩
  obtain ⟨l, hl⟩ := h (resume ⟨2⟩) (onFirst ⟨0⟩) hr hs ⟨0⟩ _ rfl
  have hcycle : ((resume ⟨2⟩).act (onFirst ⟨0⟩)).2.world.heap.chain ⟨0⟩ = .error (.parentCycle ⟨0⟩) := by rfl
  simp [hcycle] at hl

end Call

end FiberStacks
