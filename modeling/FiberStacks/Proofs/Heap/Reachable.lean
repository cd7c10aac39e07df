import FiberStacks.Heap.Roots
import FiberStacks.Proofs.Heap.Arena
import Mathlib.Data.List.Nodup
import Mathlib.Data.List.TakeWhile

/-!
# The stacks reached from some blocks

A major pass starts from some blocks and follows what the visitor has stored: a reference to a stack, or to a full
capsule, which leads to the head it holds.  The words it follows are being replaced meanwhile, but no stack is scanned
twice, so what a stack not yet scanned holds is what it held at first.

* `Segment.roots`, `Segment.rewrite` — the words of a stack that are shown, and the stack with others in their place;
* `Leads` — the stacks that a stack refers to once its words are replaced;
* `ReachedFrom` — **the least set of live stacks** with the live stacks among the roots that is closed under `Leads`;
* `Rewritten` — a heap in which some stacks have had their words replaced, and nothing else is different;
* `Searching` — what the search has done so far, and what one scan adds to it;
* `scanFrom_reached` — **the pass scans exactly the stacks reached**, each of them once.
-/

namespace FiberStacks

/-! ### The roots of one stack -/

namespace Segment

/-- The words of a segment that a collector is shown: handlers and link, and the used words, newest first. -/
def roots (s : Segment) : List Word := s.metadata ++ s.usedRegion

/-- The segment with other words in place of its roots. -/
def rewrite (f : Word → Word) (s : Segment) : Segment :=
  { s with
    handlers := ⟨f s.handlers.value, f s.handlers.exception, f s.handlers.effect⟩
    link := f s.link
    slots := (s.slots.take s.used).map f ++ s.slots.drop s.used
    used_le := by have := s.used_le; simp; omega }

end Segment

namespace Visitor

variable {τ : Type} {v : Visitor τ} {f : Word → Word}

theorem visitAll_append (v : Visitor τ) (ws xs : List Word) (t : τ) :
    v.visitAll (ws ++ xs) t =
      ((v.visitAll ws t).1 ++ (v.visitAll xs (v.visitAll ws t).2).1, (v.visitAll xs (v.visitAll ws t).2).2) := by
  induction ws generalizing t with
  | nil => rfl
  | cons w ws ih => simp [visitAll, ih]

theorem visitAll_fst (hv : ∀ w t, (v w t).1 = f w) (ws : List Word) (t : τ) : (v.visitAll ws t).1 = ws.map f := by
  induction ws generalizing t with
  | nil => rfl
  | cons w ws ih => simp only [visitAll, hv, ih, List.map_cons]

theorem visitAll_following (hv : ∀ w t, (v w t).1 = f w) (ws : List Word) (t : τ) (found : List BlockId) :
    v.following.visitAll ws (t, found) =
      (ws.map f, (v.visitAll ws t).2, found ++ ws.filterMap fun w => (f w).block?) := by
  induction ws generalizing t found with
  | nil => simp [visitAll]
  | cons w ws ih =>
    simp only [visitAll, following, ih, hv, List.map_cons, List.filterMap_cons]
    cases (f w).block? <;> simp

end Visitor

/-- **One stack scanned**: every root is replaced, and nothing else of the segment changes. -/
theorem Segment.scan_rewrite {τ : Type} {v : Visitor τ} {f : Word → Word} (hv : ∀ w t, (v w t).1 = f w) (s : Segment)
    (t : τ) : Segment.scan .bytecode v (s, t) = (.ok (), s.rewrite f, (v.visitAll s.roots t).2) := by
  have hmeta : (s.visitMetadata v t).2 = (v.visitAll s.metadata t).2 := rfl
  have hsegment : (s.visitMetadata v t).1 =
      { s with
        handlers := ⟨f s.handlers.value, f s.handlers.exception, f s.handlers.effect⟩
        link := f s.link } := by
    simp only [visitMetadata, hv]
  show (Except.ok (), (s.visitMetadata v t).1.visitUsed v (s.visitMetadata v t).2) = _
  unfold visitUsed
  simp only [hmeta, hsegment, Visitor.visitAll_fst hv, roots, Visitor.visitAll_append]
  simp [setUsedRegion, rewrite, usedRegion]

namespace Heap

variable {τ : Type} {v : Visitor τ} {f : Word → Word} {h h' : Heap} {rs seen queue bs : List BlockId} {b c : BlockId}
  {s : Segment}

/-! ### Reached stacks -/

/-- What a stack refers to once its roots are replaced: a live stack, or a full capsule with a live head. -/
inductive Leads (h : Heap) (f : Word → Word) (b c : BlockId) : Prop where
  | stack {s x : Segment} {w : Word} (hs : h.stack? b = some s) (hw : w ∈ s.roots) (hc : (f w).block? = some c)
      (hx : h.stack? c = some x)
  | capsule {s x : Segment} {w : Word} {k : BlockId} (hs : h.stack? b = some s) (hw : w ∈ s.roots)
      (hk : (f w).block? = some k) (hfull : h.capsule? k = some (.full c)) (hx : h.stack? c = some x)

/-- **The stacks reached from some blocks.** -/
inductive ReachedFrom (h : Heap) (f : Word → Word) (rs : List BlockId) : BlockId → Prop where
  | root {b : BlockId} {s : Segment} (hb : b ∈ rs) (hs : h.stack? b = some s) : ReachedFrom h f rs b
  | step {b c : BlockId} (hb : ReachedFrom h f rs b) (hc : h.Leads f b c) : ReachedFrom h f rs c

theorem Leads.live (hc : h.Leads f b c) : ∃ x, h.stack? c = some x := by
  cases hc with
  | stack _ _ _ hx => exact ⟨_, hx⟩
  | capsule _ _ _ _ hx => exact ⟨_, hx⟩

theorem ReachedFrom.live (hb : h.ReachedFrom f rs b) : ∃ s, h.stack? b = some s := by
  cases hb with
  | root _ hs => exact ⟨_, hs⟩
  | step _ hc => exact hc.live

theorem leadsTo_of_stack? {x : Segment} (hx : h.stack? c = some x) : h.leadsTo c = some c := by
  obtain ⟨g, hcell⟩ := cell?_of_stack? hx
  simp [leadsTo, get?, hcell]

theorem leadsTo_of_capsule? {k : BlockId} {x : Capsule} (hk : h.capsule? k = some x) : h.leadsTo k = x.head? := by
  unfold capsule? at hk
  unfold leadsTo
  split at hk
  · next ho => rw [ho, Option.some.inj hk]
  · cases hk

theorem leads_iff (hs : h.stack? b = some s) {x : Segment} (hx : h.stack? c = some x) :
    h.Leads f b c ↔ c ∈ (s.roots.filterMap fun w => (f w).block?).filterMap h.leadsTo := by
  simp only [List.mem_filterMap]
  constructor
  · rintro (⟨hs', hw, hc, hx⟩ | ⟨hs', hw, hk, hfull, -⟩)
    · obtain rfl := Option.some.inj (hs.symm.trans hs')
      exact ⟨c, ⟨_, hw, hc⟩, leadsTo_of_stack? hx⟩
    · obtain rfl := Option.some.inj (hs.symm.trans hs')
      exact ⟨_, ⟨_, hw, hk⟩, leadsTo_of_capsule? hfull⟩
  · rintro ⟨k, ⟨w, hw, hk⟩, hlead⟩
    unfold leadsTo at hlead
    split at hlead
    · obtain rfl := Option.some.inj hlead
      exact .stack hs hw hk hx
    · next ho =>
      refine .capsule hs hw hk ?_ hx
      rw [capsule?, ho]
      unfold Capsule.head? at hlead
      split at hlead
      · rw [Option.some.inj hlead]
      · cases hlead
    · cases hlead

/-! ### Heaps with words replaced -/

/-- **Some stacks have had their roots replaced,** and nothing else is different. -/
structure Rewritten (f : Word → Word) (bs : List BlockId) (h h' : Heap) : Prop where
  changed : ∀ b ∈ bs, ∃ g s, h.cell? b = some ⟨g, .stack s⟩ ∧ h'.cell? b = some ⟨g, .stack (s.rewrite f)⟩
  kept : ∀ i : Nat, (∀ b ∈ bs, b.index ≠ i) → h'.cells[i]? = h.cells[i]?
  rest : ∃ cells, h' = { h with cells }

namespace Rewritten

theorem refl (f : Word → Word) (h : Heap) : Rewritten f [] h h := ⟨nofun, fun _ _ => rfl, h.cells, rfl⟩

theorem cell?_of_notMem (hr : Rewritten f bs h h') (hb : b ∉ bs) : h'.cell? b = h.cell? b := by
  rw [cell?, cell?, hr.kept b.index fun c hc he => hb (BlockId.index_inj he ▸ hc)]

theorem leadsTo_eq (hr : Rewritten f bs h h') (b : BlockId) : h'.leadsTo b = h.leadsTo b := by
  by_cases hb : b ∈ bs
  · obtain ⟨g, s, hcell, hcell'⟩ := hr.changed b hb
    rw [leadsTo_of_stack? (stack?_of_cell? hcell), leadsTo_of_stack? (stack?_of_cell? hcell')]
  · simp only [leadsTo, get?, hr.cell?_of_notMem hb]

theorem stack?_of_notMem (hr : Rewritten f bs h h') (hb : b ∉ bs) : h'.stack? b = h.stack? b := by
  simp only [stack?, get?, hr.cell?_of_notMem hb]

/-- One more stack rewritten. -/
theorem cons (hr : Rewritten f bs h h') (hb : b ∉ bs) (hs : h.stack? b = some s) :
    Rewritten f (b :: bs) h (h'.setStack b (s.rewrite f)) := by
  obtain ⟨g, hcell⟩ := cell?_of_stack? hs
  have hcell' : h'.cell? b = some ⟨g, .stack s⟩ := (hr.cell?_of_notMem hb).trans hcell
  obtain ⟨cells, hrest⟩ := hr.rest
  refine ⟨fun c hc => ?_, fun i hi => ?_, _, by rw [setStack, set, hrest]⟩
  · rw [cell?_setStack hcell']
    by_cases hcb : c = b
    · exact ⟨g, s, hcb ▸ hcell, by rw [if_pos hcb]⟩
    · rw [if_neg hcb]
      exact hr.changed c ((List.mem_cons.1 hc).resolve_left hcb)
  · rw [← hr.kept i fun c hc => hi c (List.mem_cons_of_mem _ hc)]
    simp [setStack, set, hi b List.mem_cons_self]

theorem of_mem_iff (hr : Rewritten f bs h h') {cs : List BlockId} (hmem : ∀ b, b ∈ cs ↔ b ∈ bs) :
    Rewritten f cs h h' where
  changed := fun b hb => hr.changed b ((hmem b).1 hb)
  kept := fun i hi => hr.kept i fun b hb => hi b ((hmem b).2 hb)
  rest := hr.rest

end Rewritten

/-! ### The search -/

theorem scanStack_rewrite (hv : ∀ w t, (v w t).1 = f w) (hs : h.stack? b = some s) (t : τ) :
    h.scanStack .bytecode v b t = .ok (h.setStack b (s.rewrite f), (v.visitAll s.roots t).2) := by
  unfold scanStack
  rw [stack_eq_ok_iff.2 hs]
  simp only [Except.bind, bind, Segment.scan_rewrite hv]

theorem scanStack_following (hv : ∀ w t, (v w t).1 = f w) (hs : h.stack? b = some s) (t : τ) :
    h.scanStack .bytecode v.following b (t, []) =
      .ok (h.setStack b (s.rewrite f), (v.visitAll s.roots t).2, s.roots.filterMap fun w => (f w).block?) := by
  rw [scanStack_rewrite (v := v.following) (fun w t => hv w t.1) hs, Visitor.visitAll_following hv, List.nil_append]

def rootsOf (h : Heap) (b : BlockId) : List Word := ((h.stack? b).map Segment.roots).getD []

/-- **A search from some blocks**: the stacks scanned are reached and rewritten, what waits in the queue is reached if
it is a stack at all, and what is reached at once from a block searched from or a stack scanned is scanned or waits. -/
structure Searching (h : Heap) (f : Word → Word) (rs seen queue : List BlockId) (h' : Heap) : Prop where
  rewritten : Rewritten f seen h h'
  nodup : seen.Nodup
  reached : ∀ b ∈ seen, h.ReachedFrom f rs b
  queued : ∀ b ∈ queue, ∀ s, h.stack? b = some s → h.ReachedFrom f rs b
  roots : ∀ b ∈ rs, ∀ s, h.stack? b = some s → b ∈ seen ∨ b ∈ queue
  closed : ∀ b ∈ seen, ∀ c, h.Leads f b c → c ∈ seen ∨ c ∈ queue

namespace Searching

theorem start (h : Heap) (f : Word → Word) (rs : List BlockId) : Searching h f rs [] rs h where
  rewritten := .refl f h
  nodup := .nil
  reached := nofun
  queued := fun _ hb _ hs => .root hb hs
  roots := fun _ hb _ _ => .inr hb
  closed := nofun

/-- Blocks scanned before or no stacks leave the queue. -/
theorem shorten (hw : Searching h f rs seen queue h') {rest : List BlockId} (hsub : ∀ b ∈ rest, b ∈ queue)
    (hdrop : ∀ b ∈ queue, ∀ s, h.stack? b = some s → b ∈ seen ∨ b ∈ rest) : Searching h f rs seen rest h' where
  rewritten := hw.rewritten
  nodup := hw.nodup
  reached := hw.reached
  queued := fun b hb => hw.queued b (hsub b hb)
  roots := fun b hb s hs => (hw.roots b hb s hs).elim .inl fun hq => hdrop b hq s hs
  closed := fun b hb c hc => (hw.closed b hb c hc).elim .inl fun hq => hdrop c hq _ hc.live.choose_spec

/-- **One more scan**: what the stack leads to waits behind the others. -/
theorem scan (hw : Searching h f rs seen (b :: queue) h') (hb : b ∉ seen) (hs : h.stack? b = some s) :
    Searching h f rs (b :: seen) (queue ++ (s.roots.filterMap fun w => (f w).block?).filterMap h.leadsTo)
      (h'.setStack b (s.rewrite f)) := by
  have hreached : h.ReachedFrom f rs b := hw.queued b List.mem_cons_self s hs
  -- A block that was known is scanned now or waits still.
  have hknown : ∀ c, c ∈ seen ∨ c ∈ b :: queue →
      c ∈ b :: seen ∨ c ∈ queue ++ (s.roots.filterMap fun w => (f w).block?).filterMap h.leadsTo := by
    simp only [List.mem_cons, List.mem_append]
    tauto
  refine ⟨hw.rewritten.cons hb hs, List.nodup_cons.2 ⟨hb, hw.nodup⟩, List.forall_mem_cons.2 ⟨hreached, hw.reached⟩, ?_,
    fun c hc x hx => hknown c (hw.roots c hc x hx), List.forall_mem_cons.2 ⟨fun c hc => ?_, fun a ha c hc => ?_⟩⟩
  · intro c hc x hx
    rcases List.mem_append.1 hc with hold | hnew
    · exact hw.queued c (List.mem_cons_of_mem _ hold) x hx
    · exact .step hreached ((leads_iff hs hx).2 hnew)
  · obtain ⟨x, hx⟩ := hc.live
    exact .inr (List.mem_append_right _ ((leads_iff hs hx).1 hc))
  · exact hknown c (hw.closed a ha c hc)

/-- **When the queue is empty,** the stacks scanned are the stacks reached. -/
theorem mem_iff (hw : Searching h f rs seen [] h') : b ∈ seen ↔ h.ReachedFrom f rs b := by
  refine ⟨hw.reached b, fun hb => ?_⟩
  induction hb with
  | root hb hs => exact (hw.roots _ hb _ hs).resolve_right List.not_mem_nil
  | step _ hc ih => exact (hw.closed _ ih _ hc).resolve_right List.not_mem_nil

/-- Only blocks scanned before and blocks that are no stacks are dropped from the queue. -/
theorem dropped (hw : Searching h f rs seen queue h') (hb : b ∈ queue) (hs : h.stack? b = some s) :
    b ∈ seen ∨ b ∈ queue.dropWhile fun b => seen.contains b || (h'.stack? b).isNone := by
  rw [← queue.takeWhile_append_dropWhile (p := fun b => seen.contains b || (h'.stack? b).isNone), List.mem_append] at hb
  refine hb.elim (fun htake => .inl ?_) .inr
  have hp := List.mem_takeWhile_imp htake
  by_cases hseen : b ∈ seen
  · exact hseen
  · rw [hw.rewritten.stack?_of_notMem hseen, hs] at hp
    simpa using hp

/-- **What comes next**: nothing, or a stack that was not scanned and holds what it held at first. -/
theorem next (hw : Searching h f rs seen queue h') {rest : List BlockId}
    (hq : (queue.dropWhile fun b => seen.contains b || (h'.stack? b).isNone) = rest) :
    Searching h f rs seen rest h' ∧
      ∀ b, rest.head? = some b → b ∉ seen ∧ ∃ s, h.stack? b = some s ∧ h'.stack? b = some s := by
  refine ⟨hw.shorten (fun b hb => ?_) fun b hb s hs => hq ▸ hw.dropped hb hs, fun b hb => ?_⟩
  · exact (List.dropWhile_suffix _).subset (hq ▸ hb)
  · have hp := List.head?_dropWhile_not (fun b => seen.contains b || (h'.stack? b).isNone) queue
    rw [hq, hb] at hp
    have hnot : b ∉ seen ∧ (h'.stack? b).isNone = false := by simpa using hp
    obtain ⟨s, hs⟩ := Option.isSome_iff_exists.1 (Option.isNone_eq_false_iff.1 hnot.2)
    exact ⟨hnot.1, s, (hw.rewritten.stack?_of_notMem hnot.1).symm.trans hs, hs⟩

/-- **The search to its end**, which it reaches within as many scans as there are cells. -/
theorem run (hw : Searching h f rs seen queue h') (hv : ∀ w t, (v w t).1 = f w) (t : τ) :
    ∃ (order : List BlockId) (h'' : Heap), Searching h f rs (order.reverse ++ seen) [] h'' ∧
      ∀ n, h.capacity ≤ n + seen.length →
        scanQueue .bytecode v n h' queue seen t =
          .ok ((order.reverse ++ seen).length, h'', (v.visitAll (order.flatMap h.rootsOf) t).2) := by
  -- The induction is on the stacks that are still to be scanned.
  induction hm : h.capacity - seen.length using Nat.strongRecOn generalizing seen queue h' t with
  | ind m ih =>
    cases hq : queue.dropWhile fun b => seen.contains b || (h'.stack? b).isNone with
    | nil =>
      refine ⟨[], h', (hw.next hq).1, fun n _ => ?_⟩
      cases n with
      | zero => rfl
      | succ n => rw [scanQueue, hq]; rfl
    | cons b rest =>
      obtain ⟨hw', hhead⟩ := hw.next hq
      obtain ⟨hb, s, hs, hs'⟩ := hhead b rfl
      have hnext := hw'.scan hb hs
      have hroom : seen.length + 1 ≤ h.capacity :=
        length_le_capacity_of_nodup hnext.nodup fun a ha => (hnext.reached a ha).live
      obtain ⟨order, h'', hend, hrun⟩ := ih _ (by rw [List.length_cons]; omega) hnext (v.visitAll s.roots t).2 rfl
      have hroots : h.rootsOf b = s.roots := by rw [rootsOf, hs]; rfl
      refine ⟨b :: order, h'', by simpa using hend, fun n hn => ?_⟩
      obtain ⟨n, rfl⟩ : ∃ k, n = k + 1 := ⟨n - 1, by omega⟩
      have hleads : (h'.setStack b (s.rewrite f)).leadsTo = h.leadsTo := funext hnext.rewritten.leadsTo_eq
      rw [scanQueue, hq]
      simp only [scanStack_following hv hs']
      show scanQueue .bytecode v n _ _ _ _ = _
      rw [hleads, hrun n (by rw [List.length_cons]; omega), List.flatMap_cons, hroots, Visitor.visitAll_append]
      simp

end Searching

/-- **A major pass scans the stacks reached.**  There is an order in which every stack reached from the roots stands
once and no other block, such that the visitor is shown the roots of one stack after another, the pass counts these
stacks, their roots are replaced and nothing else of the heap changes; and as many scans as there are cells are
enough. -/
theorem scanFrom_reached {τ : Type} {v : Visitor τ} {f : Word → Word} (hv : ∀ w t, (v w t).1 = f w) (h : Heap)
    (rs : List BlockId) (t : τ) :
    ∃ (order : List BlockId) (h' : Heap), order.Nodup ∧ (∀ b, b ∈ order ↔ h.ReachedFrom f rs b) ∧
      Rewritten f order h h' ∧
      h.scanFrom .bytecode v rs t = .ok (order.length, h', (v.visitAll (order.flatMap h.rootsOf) t).2) ∧
      ∀ n, h.capacity ≤ n → scanQueue .bytecode v n h rs [] t = h.scanFrom .bytecode v rs t := by
  obtain ⟨order, h', hend, hrun⟩ := (Searching.start h f rs).run hv t
  rw [List.append_nil] at hend hrun
  have hscan : ∀ n, h.capacity ≤ n →
      scanQueue .bytecode v n h rs [] t = .ok (order.length, h', (v.visitAll (order.flatMap h.rootsOf) t).2) :=
    fun n hn => by rw [hrun n hn, List.length_reverse]
  refine ⟨order, h', List.nodup_reverse.1 hend.nodup, fun b => ?_, ?_, hscan _ (Nat.le_refl _), fun n hn => ?_⟩
  · rw [← hend.mem_iff, List.mem_reverse]
  · exact hend.rewritten.of_mem_iff fun b => List.mem_reverse.symm
  · exact (hscan n hn).trans (hscan _ (Nat.le_refl _)).symm

/-- **A cycle through a capsule**: of four stacks the first two and the one in the capsule are scanned, since what the
first one holds in place of its reference to the last one is a reference to the second. -/
theorem scanFrom_reached_cycle :
    let stack (w : Word) : Option Cell := some ⟨.old, .stack ⟨1, none, .zero, .unit, [w], Nat.le_refl 1⟩⟩
    let h : Heap :=
      { Heap.empty 100 100 with
        cells := [stack (.ofBlock ⟨4⟩), stack (.ofBlock ⟨2⟩), some ⟨.old, .capsule (.full ⟨3⟩)⟩, stack (.ofBlock ⟨0⟩),
          stack .unit, none] }
    let f (w : Word) : Word := if w = .ofBlock ⟨4⟩ then .ofBlock ⟨1⟩ else w
    let rs : List BlockId := [⟨0⟩, ⟨5⟩, ⟨0⟩, ⟨2⟩]
    ((h.scanFrom .bytecode (.recording f) rs []).map Prod.fst = .ok 3) ∧
      ∃ (order : List BlockId) (h' : Heap), order.Nodup ∧ (∀ b, b ∈ order ↔ h.ReachedFrom f rs b) ∧
        Rewritten f order h h' ∧ order.length = 3 := by
  intro stack h f rs
  obtain ⟨order, h', hnodup, hmem, hr, hscan, -⟩ := scanFrom_reached (v := .recording f) (fun _ _ => rfl) h rs []
  have hcount : (h.scanFrom .bytecode (.recording f) rs []).map Prod.fst = .ok 3 := by decide +kernel
  refine ⟨hcount, order, h', hnodup, hmem, hr, ?_⟩
  rw [hscan] at hcount
  exact Except.ok.inj hcount

end Heap

end FiberStacks
