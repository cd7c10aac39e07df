import FiberStacks.Proofs.Barrier.ChainMarks
import FiberStacks.Proofs.Barrier.Leaving

/-!
# Marks that go

A minor pass, the end of a domain and the work of the collector clear marks and put none.

* `Heap.losesMarks_clean`, `Heap.losesMarks_cleanAll` — one mark cleared, and all marks of a domain;
* `Heap.losesMarks_discard`, `Heap.losesMarks_promote` — blocks freed and promoted;
* `KeptByScan` — what showing the roots of a segment keeps, under both layouts, and `Segment.owner_scan`, its mark;
* `scanQueued_spec` — a queue served, by induction on the queue;
* `marked_scanRemembered`, `marked_terminate` — **no mark of the domain is left out of its queue**.
-/

namespace FiberStacks

open FiberStacks.Action

/-! ### Marks cleared -/

namespace Heap

variable {h h' : Heap} {b c : BlockId} {d o : DomainId} {x : Segment} {r : Bool}

theorem clean_eq_ok (hc : h.clean d b = .ok (r, h')) : ∃ x, h.stack? b = some x ∧
    ((x.owner = some d ∧ h' = h.setStack b { x with owner := none }) ∨ (x.owner ≠ some d ∧ h' = h)) := by
  obtain ⟨x, hx, hc⟩ := bind_eq_ok_iff.1 hc
  refine ⟨x, stack_eq_ok_iff.1 hx, ?_⟩
  split at hc
  · next ho => exact .inl ⟨ho, (Prod.mk.inj (Except.ok.inj hc)).2.symm⟩
  · next ho => exact .inr ⟨ho, (Prod.mk.inj (Except.ok.inj hc)).2.symm⟩

theorem losesMarks_setStack {y : Segment} (hf : h.FreeListed) (hx : h.stack? b = some x)
    (hy : ∀ o, y.owner = some o → x.owner = some o) : h.LosesMarks (h.setStack b y) where
  freeListed := hf.set b _
  marks c o hc := by
    refine ⟨?_, fun hg => (generation?_setStack h b c y).trans hg⟩
    by_cases hcb : c = b
    · subst hcb
      rw [owner?_setStack_self hx] at hc
      exact (owner?_of_stack? hx).trans (hy o hc)
    · rwa [owner?_setStack_of_ne hcb] at hc

/-- **A mark cleared**, if it is one of the domain. -/
theorem losesMarks_clean (hf : h.FreeListed) (hc : h.clean d b = .ok (r, h')) :
    h.LosesMarks h' ∧ h'.owner? b ≠ some d := by
  obtain ⟨x, hx, ⟨-, rfl⟩ | ⟨ho, rfl⟩⟩ := clean_eq_ok hc
  · refine ⟨losesMarks_setStack hf hx (by simp), ?_⟩
    rw [owner?_setStack_self hx]
    simp
  · exact ⟨KeepsMarks.loses (.refl hf), by rwa [owner?_of_stack? hx]⟩

theorem losesMarks_cleanEach : ∀ (l : List BlockId) {h : Heap}, h.FreeListed →
    let h' := l.foldl (fun h b => ((h.clean d b).map Prod.snd).toOption.getD h) h
    h.LosesMarks h' ∧ ∀ b ∈ l, h'.owner? b ≠ some d
  | [], h, hf => ⟨KeepsMarks.loses (.refl hf), by simp⟩
  | b :: rest, h, hf => by
    have hfirst : h.LosesMarks (((h.clean d b).map Prod.snd).toOption.getD h) ∧
        (((h.clean d b).map Prod.snd).toOption.getD h).owner? b ≠ some d := by
      cases hc : h.clean d b with
      | ok p => exact losesMarks_clean hf hc
      | error e =>
        -- the block is not a stack, and carries no mark
        have hnone : h.stack? b = none := by
          unfold clean stack at hc
          cases hx : h.stack? b with
          | none => rfl
          | some x =>
            simp only [hx, bind, Except.bind] at hc
            split at hc <;> cases hc
        refine ⟨KeepsMarks.loses (.refl hf), fun ho => ?_⟩
        obtain ⟨x, hx, -⟩ := owner?_eq_some_iff.1 ho
        cases hnone.symm.trans hx
    obtain ⟨hloses, hgone⟩ := losesMarks_cleanEach rest hfirst.1.freeListed
    refine ⟨hfirst.1.trans hloses, fun c hc => ?_⟩
    rcases List.mem_cons.1 hc with rfl | hc
    · exact fun ho => hfirst.2 (hloses.marks c d ho).1
    · exact hgone c hc

theorem mem_dirtiedBy (ho : h.owner? b = some d) : b ∈ h.dirtiedBy d := by
  obtain ⟨x, hx, ho⟩ := owner?_eq_some_iff.1 ho
  exact List.mem_map.2 ⟨(b, x), List.mem_filter.2 ⟨mem_liveStacks hx, by simp [ho]⟩, rfl⟩

/-- **All marks of a domain cleared.** -/
theorem losesMarks_cleanAll (hf : h.FreeListed) (d : DomainId) :
    h.LosesMarks (h.cleanAll d) ∧ ∀ b, (h.cleanAll d).owner? b ≠ some d := by
  obtain ⟨hloses, hgone⟩ := losesMarks_cleanEach (d := d) (h.dirtiedBy d) hf
  exact ⟨hloses, fun b ho => hgone b (mem_dirtiedBy (hloses.marks b d ho).1) ho⟩

/-! ### The work of the collector -/

theorem losesMarks_discard (hf : h.FreeListed) (b : BlockId) : h.LosesMarks (h.discard b) :=
  losesMarks_discardAll hf [b]

theorem owner?_promote (h : Heap) (b c : BlockId) : (h.promote b).owner? c = h.owner? c := by
  unfold owner? stack? get?
  rw [cell?_promote]
  by_cases hc : c = b
  · subst hc
    cases h.cell? c <;> simp
  · rw [if_neg hc]

theorem generation?_promote_of_old (hg : h.generation? c = some .old) : (h.promote b).generation? c = some .old := by
  unfold generation? at hg ⊢
  rw [cell?_promote]
  by_cases hc : c = b
  · subst hc
    cases hx : h.cell? c <;> simp_all
  · rwa [if_neg hc]

theorem losesMarks_promote (hf : h.FreeListed) (b : BlockId) : h.LosesMarks (h.promote b) where
  freeListed := hf.promote b
  marks c _ hc := ⟨owner?_promote h b c ▸ hc, generation?_promote_of_old⟩

theorem losesMarks_markReady (hf : h.FreeListed) : h.LosesMarks h.markReady :=
  ⟨⟨hf.nodup, hf.empty⟩, fun _ _ hb => ⟨hb, fun hg => hg⟩⟩

end Heap

/-! ### Roots shown -/

section Roots

variable {τ α : Type}

/-- **A relation kept by a scan**: it holds where nothing is written, and where a word, the used words or handlers and
link are. -/
structure KeptByScan (R : Segment × τ → Segment × τ → Prop) : Prop where
  refl : ∀ s, R s s
  trans : ∀ {s t u}, R s t → R t u → R s u
  word : ∀ x i w t t', R (x, t) (x.setWordAt i w, t')
  used : ∀ x ws h t t', R (x, t) (x.setUsedRegion ws h, t')
  control : ∀ (x : Segment) handlers link t t', R (x, t) ({ x with handlers, link }, t')

namespace KeptByScan

variable {R : Segment × τ → Segment × τ → Prop}

theorem bind (hR : KeptByScan R) {a : Walk τ α} {β : Type} {f : α → Walk τ β} (ha : a.Relates R)
    (hf : ∀ x, (f x).Relates R) : (a >>= f).Relates R :=
  Relates.bind (R := R) hR.trans ha hf

theorem of_snd {a : Walk τ α} (h : ∀ s, R s (a s).2) : a.Relates R := by
  intro s
  have hs := h s
  unfold wp
  rcases ha : a s with ⟨_ | _, t⟩ <;> simpa [ha] using hs

theorem pure (hR : KeptByScan R) (x : α) : (Pure.pure x : Walk τ α).Relates R := of_snd hR.refl

theorem wordAt (hR : KeptByScan R) (i : Nat) : (NativeWalk.wordAt i : Walk τ Word).Relates R :=
  of_snd fun s => by unfold NativeWalk.wordAt; split <;> exact hR.refl s

theorem visitAt (hR : KeptByScan R) (v : Visitor τ) (i : Nat) : (NativeWalk.visitAt v i).Relates R :=
  of_snd fun s => by
    unfold NativeWalk.visitAt
    split
    · exact hR.word s.1 i _ s.2 _
    · exact hR.refl s

theorem visitSlots (hR : KeptByScan R) (v : Visitor τ) (registers : Option Nat) (position : Nat) (ls : List LiveSlot) :
    (NativeWalk.visitSlots v registers position ls).Relates R := by
  induction ls with
  | nil => exact hR.pure _
  | cons l ls ih => exact hR.bind (of_snd hR.refl) fun i => hR.bind (hR.visitAt v i) fun _ => ih

theorem step (hR : KeptByScan R) (table : FrameTable) (v : Visitor τ) (c : NativeWalk.Cursor) :
    (NativeWalk.step table v c).Relates R := by
  have hexcept : ∀ {α : Type} (x : Except Fault α), (Action.ofExcept x : Walk τ α).Relates R :=
    fun _ => of_snd hR.refl
  cases c with
  | chunk p =>
    change (NativeWalk.enterChunk p).Relates R
    unfold NativeWalk.enterChunk
    refine hR.bind (of_snd hR.refl) fun s => ?_
    obtain ⟨s, t⟩ := s
    simp only
    split
    · exact hR.pure _
    · refine hR.bind (hR.wordAt p) fun w => hR.bind (hexcept _) fun r => ?_
      split
      · exact hR.pure _
      · exact hR.bind (hR.wordAt _) fun _ => hR.pure _
  | frame r p a =>
    change (NativeWalk.leaveFrame table v r p a).Relates R
    unfold NativeWalk.leaveFrame
    split
    · exact of_snd hR.refl
    · split
      · exact hR.pure _
      · exact hR.bind (hR.visitSlots _ _ _ _) fun _ => hR.bind (hR.wordAt _) fun _ => hR.pure _

theorem run (hR : KeptByScan R) (table : FrameTable) (v : Visitor τ) (n : Nat) (c : NativeWalk.Cursor) :
    (NativeWalk.run table v n c).Relates R := by
  induction n generalizing c with
  | zero => exact hR.pure _
  | succ n ih =>
    refine hR.bind (hR.step table v c) fun c' => ?_
    cases c' with
    | none => exact hR.pure _
    | some c' => exact ih c'

/-- **Showing the roots of a segment keeps it**, under both layouts. -/
theorem scan (hR : KeptByScan R) (layout : Layout) (v : Visitor τ) : (Segment.scan layout v).Relates R := by
  refine hR.bind (of_snd fun s => hR.control s.1 _ _ s.2 _) fun _ => ?_
  cases layout with
  | bytecode => exact of_snd fun s => hR.used s.1 _ _ s.2 _
  | native table =>
    refine hR.bind (of_snd hR.refl) fun s => ?_
    obtain ⟨s, t⟩ := s
    simp only
    split
    · exact hR.pure _
    · refine hR.bind (hR.run _ _ _ _) fun c => ?_
      cases c
      · exact hR.pure _
      · exact of_snd hR.refl

end KeptByScan

/-- The segment carries the mark it carried. -/
def SameOwner (s t : Segment × τ) : Prop := t.1.owner = s.1.owner

/-- **Showing the roots of a segment leaves its mark.** -/
theorem Segment.owner_scan (layout : Layout) (v : Visitor τ) : (scan layout v).Relates SameOwner := by
  have hkept : KeptByScan (SameOwner : Segment × τ → Segment × τ → Prop) :=
    ⟨fun _ => rfl, fun h h' => Eq.trans h' h, fun _ _ _ _ _ => rfl, fun _ _ _ _ _ => rfl, fun _ _ _ _ _ => rfl⟩
  exact hkept.scan layout v

namespace Heap

variable {h h' : Heap} {b : BlockId} {d : DomainId} {t t' : τ} {layout : Layout} {v : Visitor τ}

theorem losesMarks_scanStack (hf : h.FreeListed) (hr : h.scanStack layout v b t = .ok (h', t')) :
    h.LosesMarks h' := by
  obtain ⟨x, hx, hr⟩ := bind_eq_ok_iff.1 hr
  have howner := Segment.owner_scan layout v (x, t)
  rcases hs : Segment.scan layout v (x, t) with ⟨_ | _, y, u⟩
  · simp [hs] at hr
  · simp only [hs, Except.ok.injEq, Prod.mk.injEq] at hr
    rw [wp_of_ok hs] at howner
    exact hr.1 ▸ losesMarks_setStack hf (stack_eq_ok_iff.1 hx) fun o ho => howner.symm.trans ho

/-- **The roots of a stack are shown** if it carries the mark of the domain. -/
theorem losesMarks_scanIfDirty {dirty : Bool} (hf : h.FreeListed)
    (hr : h.scanIfDirty layout v d b t = .ok (dirty, h', t')) :
    h.LosesMarks h' ∧ (dirty = false → h'.owner? b ≠ some d) := by
  obtain ⟨x, hx, hr⟩ := bind_eq_ok_iff.1 hr
  split at hr
  · cases hp : h.scanStack layout v b t with
    | error e => simp [hp, Except.map] at hr
    | ok p =>
      simp only [hp, Except.map, Except.ok.injEq, Prod.mk.injEq] at hr
      obtain ⟨rfl, rfl, -⟩ := hr
      exact ⟨losesMarks_scanStack hf hp, by simp⟩
  · next ho =>
    simp only [Except.ok.injEq, Prod.mk.injEq] at hr
    obtain ⟨rfl, rfl, -⟩ := hr
    exact ⟨KeepsMarks.loses (.refl hf), fun _ => by rwa [owner?_of_stack? (stack_eq_ok_iff.1 hx)]⟩

end Heap

namespace Act

variable {s u : Active} {queue : List BlockId}

/-- **The stacks of a queue were served**: none carries the mark of the domain, and nothing else changed. -/
structure Served (queue : List BlockId) (s u : Active) : Prop where
  domain : u.domain = s.domain
  created : u.world.domainsCreated = s.world.domainsCreated
  loses : s.world.heap.LosesMarks u.world.heap
  gone : ∀ b ∈ queue, u.world.heap.owner? b ≠ some s.domain.id

/-- One more stack was served before. -/
theorem Served.cons {b : BlockId} {m : Active} (hm : Served [b] s m) (hu : Served queue m u) :
    Served (b :: queue) s u where
  domain := hu.domain.trans hm.domain
  created := hu.created.trans hm.created
  loses := hm.loses.trans hu.loses
  gone c hc := by
    rcases List.mem_cons.1 hc with rfl | hc
    · exact fun ho => hm.gone c (by simp) (hu.loses.marks c _ ho).1
    · exact hm.domain ▸ hu.gone c hc

/-- **A queue is served**, stack by stack. -/
theorem scanQueued_spec (v : Visitor τ) : ∀ (queue : List BlockId) (t : τ) {s : Active}, s.world.heap.FreeListed →
    (scanQueued v queue t).wp s (fun _ u => Served queue s u) fun e _ => e ≠ .raised
  | [], t, s, hf => ⟨rfl, rfl, Heap.KeepsMarks.loses (.refl hf), by simp⟩
  | b :: rest, t, s, hf => by
    -- what is served after the first stack
    have hrest : ∀ {t' : τ} {m : Active}, Served [b] s m →
        (scanQueued v rest t').wp m (fun _ u => Served (b :: rest) s u) fun e _ => e ≠ .raised := fun hm =>
      wp_mono (scanQueued_spec v rest _ hm.loses.freeListed) (fun _ _ hu => hm.cons hu) fun _ _ h => h
    unfold scanQueued
    simp only [wp_bind, wp_heap]
    split
    · simp only [wp_bind, wp_domain, wp_layout, wp_check, wp_setHeap]
      refine ⟨?_, fun _ _ => by simp⟩
      rintro ⟨dirty, h₁, t'⟩ hscan
      obtain ⟨hloses, hgone⟩ := Heap.losesMarks_scanIfDirty hf hscan
      cases dirty with
      | false =>
        exact hrest ⟨rfl, rfl, hloses, fun c hc => List.mem_singleton.1 hc ▸ hgone rfl⟩
      | true =>
        simp only [if_true, wp_bind, wp_check, wp_setHeap, wp_pure]
        refine ⟨?_, fun _ _ => by simp⟩
        rintro ⟨r, h₂⟩ hclean
        obtain ⟨hloses', hgone'⟩ := Heap.losesMarks_clean hloses.freeListed hclean
        exact hrest ⟨rfl, rfl, hloses.trans hloses', fun c hc => List.mem_singleton.1 hc ▸ hgone'⟩
    · next hdead =>
      have hnone : s.world.heap.cell? b = none := by simpa [Heap.contains] using hdead
      refine hrest ⟨rfl, rfl, Heap.KeepsMarks.loses (.refl hf), fun c hc => ?_⟩
      rw [List.mem_singleton.1 hc, Heap.owner?_of_cell?_eq_none hnone]
      simp

/-- **A minor pass**: the queue is empty afterwards, and so are the marks on it gone. -/
theorem marked_scanRemembered (v : Visitor τ) (t : τ) (hf : s.world.heap.FreeListed) :
    (scanRemembered v t).wp s (fun _ u => Marked s u) fun e _ => e ≠ .raised := by
  unfold scanRemembered
  refine wp_bind_of (wp_and (advances_syncStack s) syncStack_contains) ?_ fun _ _ h => h.2
  rintro - m ⟨hadv, hdomain, -⟩
  have hm := hadv hf
  simp only [wp_bind, wp_domain, wp_modifyDomain]
  refine wp_mono (scanQueued_spec v _ t (s := { m with domain := { m.domain with remembered := .empty } })
    hm.freeListed) (fun _ u hu => hm.trans_marked ?_) fun _ _ h => h
  exact Heap.LosesMarks.marked hu.loses (by rw [hu.domain]) hu.created fun b hb hq => absurd hb (hu.gone b hq)

theorem cleanAll_fields (w : World) (d : DomainId) :
    (w.cleanAll d).2.heap = w.heap.cleanAll d ∧ (w.cleanAll d).2.domainsCreated = w.domainsCreated := by
  unfold World.cleanAll
  simp only
  split <;> exact ⟨rfl, rfl⟩

/-- **The end of a domain**: none of its marks is left. -/
theorem marked_terminate (hf : s.world.heap.FreeListed) :
    terminate.wp s (fun _ u => Marked s u ∧ ∀ b, u.world.heap.owner? b ≠ some s.domain.id) fun _ _ => False := by
  obtain ⟨hloses, hgone⟩ := Heap.losesMarks_cleanAll hf s.domain.id
  obtain ⟨hheap, hcreated⟩ := cleanAll_fields s.world s.domain.id
  have hended : ∀ n, Marked s ⟨{ s.domain with remembered := .empty },
      ((s.world.cleanAll s.domain.id).2.deregister s.domain.id).note (.domainEnded s.domain.id n)⟩ := fun n =>
    Heap.LosesMarks.marked (hheap ▸ hloses) rfl hcreated fun b hb => absurd (hheap ▸ hb) (hgone b)
  exact ⟨hended _, fun b => hheap ▸ hgone b⟩

end Act

end Roots

end FiberStacks
