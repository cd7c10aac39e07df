import FiberStacks.Proofs.Drain.Roots
import FiberStacks.Proofs.Frames.Endless

/-!
# The frames of a new fiber

A native fiber starts with one chunk without frames: a context header, the return address under which it hands over its
value, and two link words.  The walk goes from the one to the other past the boundary that the table names, and it shows
nothing.  The table names it as long as no other descriptor was inserted under that address; for every other descriptor
the walk runs on into the links, and cannot end without showing something of what it finds there.

* `FrameTable.Bounds` — the table has a boundary under an address; `bounds_foldl_insert_build` — **when it has**;
* `Segment.EmptyChunk` — the words a native fiber starts with, whatever its header says of saved registers;
* `EmptyChunk.scan` — past the boundary;
* `Cursor.Beyond`, `run_beyond` — **a walk that has missed the boundary**;
* `Act.Shows` — a scan that shows exactly some roots;
* `Act.newFiber_shows_iff` — **what is shown of a new fiber**, to a collector and as current stack.
-/

namespace FiberStacks

open FiberStacks.Action

/-! ### The boundaries of the table -/

namespace FrameTable

/-- The table has a boundary under an address. -/
def Bounds (t : FrameTable) (a : UInt64) : Prop := ∃ d, t.find? a = some d ∧ d.isBoundary = true

theorem latest_append (l m : List FrameDescriptor) (a : UInt64) :
    latest (l ++ m) a = (latest m a).or (latest l a) := by
  rw [latest, List.reverse_append, List.find?_append]
  rfl

/-- **Under the two addresses a fiber ends at** there is what was inserted last, and before that a boundary. -/
theorem find?_fiberEnd (ds es : List FrameDescriptor) {a : UInt64} (ha : a = valueReturn ∨ a = exceptionReturn) :
    (es.foldl insert (build ds)).find? a = some ((latest (ds ++ es) a).getD (.boundary a)) := by
  have ht := (represents_foldl_insert_build ds es).find?_eq a
  have hends : latest [.boundary valueReturn, .boundary exceptionReturn] a = some (.boundary a) := by
    rcases ha with rfl | rfl <;> decide
  rw [show FrameDescriptor.boundary valueReturn :: .boundary exceptionReturn :: (ds ++ es) =
    [.boundary valueReturn, .boundary exceptionReturn] ++ (ds ++ es) from rfl, latest_append, hends] at ht
  rw [ht]
  cases latest (ds ++ es) a <;> rfl

/-- Descriptors leave a boundary where it is: none of them, or a boundary last, is for its address. -/
def Spares (ds : List FrameDescriptor) (a : UInt64) : Prop := ∀ d, latest ds a = some d → d.isBoundary = true

/-- **When the table has the boundaries of fibers**: nothing else was inserted last under their addresses. -/
theorem bounds_foldl_insert_build (ds es : List FrameDescriptor) {a : UInt64}
    (ha : a = valueReturn ∨ a = exceptionReturn) : (es.foldl insert (build ds)).Bounds a ↔ Spares (ds ++ es) a := by
  unfold Bounds Spares
  rw [find?_fiberEnd ds es ha]
  cases latest (ds ++ es) a with
  | none => exact ⟨nofun, fun _ => ⟨_, rfl, rfl⟩⟩
  | some d => simp

end FrameTable

/-! ### An empty chunk -/

namespace Segment

variable {s s' : Segment} {o : Int} {w : Word}

theorem wordAt?_slot {k : Nat} (hk : k < s.capacity) : s.wordAt? (s.capacity - 1 - k) = s.slots[k]? := by
  rw [wordAt?, if_pos (by omega), show s.capacity - 1 - (s.capacity - 1 - k) = k by omega]

/-- **The words a native fiber starts with**, as far as a walk reads them: a header that is null or an offset inside the
segment, and the return address of the value. -/
structure EmptyChunk (s : Segment) : Prop where
  used : s.used = 5
  header : ∃ w, s.slots[4]? = some w ∧ (w = .null ∨ ∃ i, w.int?.bind s.index? = some i)
  top : s.slots[2]? = some ⟨valueReturn⟩

theorem EmptyChunk.capacity_le (h : s.EmptyChunk) : 5 ≤ s.capacity := h.used ▸ s.used_le

theorem EmptyChunk.visitMetadata {τ : Type} (h : s.EmptyChunk) (v : Visitor τ) (t : τ) :
    (s.visitMetadata v t).1.EmptyChunk := ⟨h.used, h.header, h.top⟩

end Segment

namespace NativeWalk

variable {τ : Type} {table : FrameTable} {v : Visitor τ} {f : Word → Word} {u : Segment × τ} {c : Cursor}

theorem step_emptyChunk (table : FrameTable) (v : Visitor τ) (h : u.1.EmptyChunk) : ∃ r,
    step table v (start u.1) u = (.ok (some (.frame r (u.1.capacity - 2) valueReturn)), u) := by
  have hcap := h.capacity_le
  obtain ⟨w, hw, hheader⟩ := h.header
  have hfirst : u.1.wordAt? (u.1.capacity - 5) = some w := by
    rw [show u.1.capacity - 5 = u.1.capacity - 1 - 4 by omega, Segment.wordAt?_slot (by omega), hw]
  have hthird : u.1.wordAt? (u.1.capacity - 5 + contextHeaderWords) = some ⟨valueReturn⟩ := by
    rw [show u.1.capacity - 5 + contextHeaderWords = u.1.capacity - 1 - 2 by unfold contextHeaderWords; omega,
      Segment.wordAt?_slot (by omega), h.top]
  obtain ⟨r, hr⟩ : ∃ r, registersOf u.1 w (u.1.capacity - 5) = .ok r := by
    unfold registersOf
    split
    · exact ⟨_, rfl⟩
    · next hnull =>
      obtain ⟨i, hi⟩ := hheader.resolve_left hnull
      exact ⟨some i, by rw [hi]⟩
  refine ⟨r, ?_⟩
  rw [start, h.used]
  unfold step enterChunk
  refine (bind_of_ok rfl).trans ?_
  simp only
  rw [if_neg (by omega)]
  refine (bind_of_ok (wordAt_of hfirst)).trans ?_
  rw [hr]
  refine (bind_of_ok rfl).trans ?_
  rw [if_neg (by unfold contextHeaderWords; omega)]
  refine (bind_of_ok (wordAt_of hthird)).trans ?_
  rw [show u.1.capacity - 5 + contextHeaderWords + 1 = u.1.capacity - 2 by unfold contextHeaderWords; omega]
  rfl

/-- **Past the boundary nothing is left**, and nothing was shown. -/
theorem scan_emptyChunk (h : u.1.EmptyChunk) (hb : table.Bounds valueReturn) : scan table v u = (.ok (), u) := by
  have hcap := h.capacity_le
  obtain ⟨r, hstep⟩ := step_emptyChunk table v h
  obtain ⟨d, hd, hd'⟩ := hb
  refine scan_of_run (by rw [h.used]; decide) ?_
  rw [show stepLimit u.1.capacity = stepLimit u.1.capacity - 3 + 1 + 1 + 1 by unfold stepLimit; omega]
  refine (run_succ_of hstep _).trans ((run_succ_of (step_boundary hd hd') _).trans (bind_of_ok (step_end ?_)))
  unfold chunkLinkWords
  omega

/-! ### Beyond the boundary -/

section Recording

variable {u : Segment × List Word}

theorem visitSlots_length (r : Option Nat) (p : Nat) (ls : List LiveSlot) (u : Segment × List Word) :
    (visitSlots (.recording f) r p ls).wp u (fun _ u' => u'.2.length = u.2.length + ls.length)
      fun _ _ => True := by
  induction ls generalizing u with
  | nil => rfl
  | cons l ls ih =>
    refine (wp_bind ..).2 ((wp_ofExcept _).2 ⟨fun i _ => ?_, fun _ _ => trivial⟩)
    have hvisit : (visitAt (.recording f) i).wp u (fun _ u' => u'.2.length = u.2.length + 1) fun _ _ => True := by
      unfold wp visitAt
      cases u.1.wordAt? i <;> simp [Visitor.recording]
    refine wp_bind_of hvisit (fun _ u₁ hu₁ => wp_mono (ih u₁) (fun _ u₂ hu₂ => ?_) fun _ _ h => h) fun _ _ h => h
    rw [hu₂, hu₁, List.length_cons]
    omega

/-- **A walk that has missed the boundary**: it is among the links of the last chunk, where no frame is left to lead to
the high end, or past it. -/
def Cursor.Beyond (table : FrameTable) (s : Segment) : Cursor → Prop
  | chunk p => s.capacity < p
  | frame r p a => (frame r p a).Led s ∧ s.capacity ≤ p + 2 ∧ (table.Bounds a → s.capacity < p + 2)

/-- **A step from there** shows something or leads no further. -/
theorem step_beyond (hc : c.Beyond table u.1) : (step table (.recording f) c).wp u
    (fun next u' => u.2.length < u'.2.length ∨ u' = u ∧ ∃ c', next = some c' ∧ c'.Beyond table u.1)
      fun _ _ => True := by
  cases c with
  | chunk p =>
    have hlt : u.1.capacity < p := hc
    show (enterChunk p).wp u _ _
    unfold enterChunk
    simp only [wp_bind, wp_state]
    rw [if_neg (Nat.ne_of_gt hlt)]
    refine (wp_bind ..).2 (wp_wordAt.2 ⟨fun w hw => ?_, fun _ => trivial⟩)
    exact absurd (Segment.lt_of_wordAt? hw) (Nat.lt_asymm hlt)
  | frame r p a =>
    obtain ⟨⟨hp, w, hw, rfl⟩, hlate, hpast⟩ := hc
    show (leaveFrame table (.recording f) r p w.bits).wp u _ _
    unfold leaveFrame
    cases hd : table.find? w.bits with
    | none => trivial
    | some d =>
      simp only
      split
      · next hb => exact .inr ⟨rfl, _, rfl, hpast ⟨d, hd, hb⟩⟩
      · next hb =>
        cases hlive : d.live with
        | cons l ls =>
          refine wp_bind_of (visitSlots_length r p (l :: ls) u) (fun _ u' hu' => ?_) fun _ _ h => h
          refine (wp_bind ..).2 (wp_wordAt.2 ⟨fun caller _ => .inl ?_, fun _ => trivial⟩)
          rw [hu', List.length_cons]
          omega
        | nil =>
          refine (wp_bind ..).2 ((wp_bind ..).2 (wp_wordAt.2 ⟨fun caller hcaller => ?_, fun _ => trivial⟩))
          refine .inr ⟨rfl, _, rfl, ⟨hp.trans (Nat.le_add_right ..), caller, hcaller, rfl⟩, by omega, fun hbounds => ?_⟩
          rcases Nat.eq_zero_or_pos d.words with hzero | hpos
          · -- the return address is the one that led here, and no boundary
            rw [hzero, Nat.add_zero] at hcaller ⊢
            obtain rfl := Option.some.inj (hw.symm.trans hcaller)
            exact hpast hbounds
          · omega

theorem step_length (c : Cursor) (u : Segment × List Word) : (step table (.recording f) c).wp u
    (fun _ u' => u.2.length ≤ u'.2.length) fun _ _ => True := by
  cases c with
  | chunk p =>
    show (enterChunk p).wp u _ _
    unfold enterChunk
    simp only [wp_bind, wp_state]
    split
    · exact Nat.le_refl _
    · refine (wp_bind ..).2 (wp_wordAt.2 ⟨fun _ _ => ?_, fun _ => trivial⟩)
      refine (wp_bind ..).2 ((wp_ofExcept _).2 ⟨fun _ _ => ?_, fun _ _ => trivial⟩)
      split
      · exact Nat.le_refl _
      · exact (wp_bind ..).2 (wp_wordAt.2 ⟨fun _ _ => Nat.le_refl _, fun _ => trivial⟩)
  | frame r p a =>
    show (leaveFrame table (.recording f) r p a).wp u _ _
    unfold leaveFrame
    split
    · trivial
    · split
      · exact Nat.le_refl _
      · refine wp_bind_of (visitSlots_length r p _ u) (fun _ u' hu' => ?_) fun _ _ h => h
        exact (wp_bind ..).2 (wp_wordAt.2 ⟨fun _ _ => (Nat.le_add_right ..).trans_eq hu'.symm, fun _ => trivial⟩)

theorem run_length (n : Nat) (c : Cursor) (u : Segment × List Word) : (run table (.recording f) n c).wp u
    (fun _ u' => u.2.length ≤ u'.2.length) fun _ _ => True := by
  induction n generalizing c u with
  | zero => exact Nat.le_refl _
  | succ n ih =>
    refine wp_bind_of (step_length c u) (fun next u₁ hu₁ => ?_) fun _ _ h => h
    cases next with
    | none => exact hu₁
    | some c₁ => exact wp_mono (ih c₁ u₁) (fun _ _ h => hu₁.trans h) fun _ _ h => h

/-- **A walk that has missed the boundary** does not end without having shown something. -/
theorem run_beyond (n : Nat) (hc : c.Beyond table u.1) : (run table (.recording f) n c).wp u
    (fun next u' => u.2.length < u'.2.length ∨ ∃ c', next = some c') fun _ _ => True := by
  induction n generalizing c u with
  | zero => exact .inr ⟨c, rfl⟩
  | succ n ih =>
    refine wp_bind_of (step_beyond hc) ?_ fun _ _ h => h
    rintro next u₁ (hlt | ⟨rfl, c₁, rfl, hc₁⟩)
    · cases next with
      | none => exact .inl hlt
      | some c₁ => exact wp_mono (run_length n c₁ u₁) (fun _ _ h => .inl (hlt.trans_le h)) fun _ _ h => h
    · exact ih hc₁

/-- **Without the boundary** no scan of an empty chunk returns that has shown nothing. -/
theorem scan_beyond (h : u.1.EmptyChunk) (hb : ¬ table.Bounds valueReturn) : (scan table (.recording f)).wp u
    (fun _ u' => u.2.length < u'.2.length) fun _ _ => True := by
  have hcap := h.capacity_le
  obtain ⟨r, hstep⟩ := step_emptyChunk table (.recording f) h
  have hbeyond : (Cursor.frame r (u.1.capacity - 2) valueReturn).Beyond table u.1 := by
    refine ⟨⟨by omega, ⟨valueReturn⟩, ?_, rfl⟩, by omega, fun h => absurd h hb⟩
    rw [show u.1.capacity - 2 - 1 = u.1.capacity - 1 - 2 by omega, Segment.wordAt?_slot (by omega), h.top]
  have hrun : (run table (.recording f) (stepLimit u.1.capacity) (start u.1)).wp u
      (fun next u' => u.2.length < u'.2.length ∨ ∃ c', next = some c') fun _ _ => True := by
    rw [show stepLimit u.1.capacity = stepLimit u.1.capacity - 1 + 1 by unfold stepLimit; omega]
    exact (wp_congr (run_succ_of hstep _)).2 (run_beyond _ hbeyond)
  unfold scan
  simp only [wp_bind, wp_state]
  rw [if_neg (by rw [h.used]; decide)]
  refine wp_bind_of hrun (fun next u' h => ?_) fun _ _ h => h
  cases next with
  | none => exact h.resolve_right (by simp)
  | some c' => trivial

end Recording

end NativeWalk

/-! ### New fibers -/

/-- What handlers and link of a new fiber hold. -/
def Handlers.slots (h : Handlers) : List Word := [h.value, h.exception, h.effect, .unit]

namespace Segment

variable {s t : Segment} {o : Int} {w : Word} {h : Handlers} {n words : Nat} {table : FrameTable}

theorem slots_setWord (hs : s.setWord o w = .ok t) :
    t = s.setSlot (o.natAbs - 1) w ∧ o < 0 ∧ o.natAbs ≤ s.capacity := by
  unfold setWord setWord? depth? at hs
  split at hs
  · next ho =>
    split at ho
    · next hin => exact ⟨by rw [← Except.ok.inj hs, ← Option.some.inj ho], hin⟩
    · cases ho
  · cases hs

theorem small_fiber {layout : Layout} (hs : fiber layout words h = .ok s) :
    contextWords + words ≤ Size.allocatable := by
  obtain ⟨n, hn, hs⟩ := bind_eq_ok_iff.1 hs
  obtain ⟨-, rfl⟩ := Size.fit_eq_ok_iff.1 hn
  obtain ⟨v, hv, -⟩ := bind_eq_ok_iff.1 hs
  unfold make at hv
  split at hv
  · assumption
  · cases hv

/-- **A new native fiber** is an empty chunk. -/
theorem emptyChunk_fiber (hs : fiber (.native table) words h = .ok s) : s.EmptyChunk := by
  unfold fiber at hs
  simp only [bind_eq_ok_iff] at hs
  obtain ⟨-, -, v, -, w₁, h₁, w₂, h₂, w₃, h₃, w₄, h₄, w₅, h₅, hp⟩ := hs
  obtain ⟨rfl, -⟩ := slots_setWord h₁
  obtain ⟨rfl, -⟩ := slots_setWord h₂
  obtain ⟨rfl, -⟩ := slots_setWord h₃
  obtain ⟨rfl, -⟩ := slots_setWord h₄
  obtain ⟨rfl, -, hcap⟩ := slots_setWord h₅
  simp only [capacity_setSlot] at hcap
  unfold setPointer at hp
  split at hp
  · obtain rfl := Except.ok.inj hp
    have hlen : 5 ≤ v.slots.length := hcap
    refine ⟨rfl, ⟨.null, ?_, .inl rfl⟩, ?_⟩
    · simp [setSlot, List.getElem?_set]
      omega
    · simp [setSlot, List.getElem?_set]
      omega
  · cases hp

/-- The header that tells where the registers of the caller are, or that there are none. -/
def headerOf : Option Int → Word
  | some o => .ofInt o
  | none => .null

/-- The offset, if there is one, is inside a segment of `n` words. -/
def Within (n : Nat) (offset : Option Int) : Prop := ∀ o, offset = some o → o < 0 ∧ o.natAbs ≤ n

/-- **The header is written anew.** -/
theorem EmptyChunk.setHeader (hs : s.EmptyChunk) (hsmall : s.capacity ≤ Size.allocatable) {offset : Option Int}
    (ho : Within s.capacity offset) :
    ∃ t, s.setWord (-5) (headerOf offset) = .ok t ∧ t.EmptyChunk ∧ t.metadata = s.metadata ∧
      t.capacity = s.capacity := by
  have hcap := hs.capacity_le
  have hset : s.setWord (-5) (headerOf offset) = .ok (s.setSlot 4 (headerOf offset)) := by
    rw [setWord, setWord?, depth?, if_pos (by omega)]
    rfl
  have hlen : 5 ≤ s.slots.length := hcap
  have hheader : (s.setSlot 4 (headerOf offset)).slots[4]? = some (headerOf offset) := by
    simp [setSlot, List.getElem?_set]
    omega
  refine ⟨_, hset, ⟨hs.used, ⟨headerOf offset, hheader, ?_⟩, ?_⟩, rfl, capacity_setSlot ..⟩
  · cases offset with
    | none => exact .inl rfl
    | some o =>
      obtain ⟨hneg, hin⟩ := ho o rfl
      have hbound : Size.allocatable = 1152921504606846975 := rfl
      refine .inr ⟨s.capacity - 1 - (o.natAbs - 1), ?_⟩
      rw [headerOf, Word.int?_ofInt (by omega) (by omega), Option.bind_some, index?, depth?, capacity_setSlot,
        if_pos ⟨hneg, hin⟩]
      rfl
  · simpa [setSlot] using hs.top

/-! ### What is shown of an empty chunk -/

variable {τ : Type} {f : Word → Word}

theorem scan_emptyChunk (hs : s.EmptyChunk) (hb : table.Bounds valueReturn) (v : Visitor τ) (t : τ) :
    scan (.native table) v (s, t) = (.ok (), s.visitMetadata v t) :=
  NativeWalk.scan_emptyChunk (hs.visitMetadata v t) hb

theorem scan_emptyChunk_length (hs : s.EmptyChunk) (hb : ¬ table.Bounds valueReturn) (seen : List Word) :
    (scan (.native table) (.recording f)).wp (s, seen) (fun _ u => seen.length + 4 < u.2.length) fun _ _ => True := by
  refine wp_mono (NativeWalk.scan_beyond (u := s.visitMetadata (.recording f) seen) (hs.visitMetadata _ seen) hb)
    (fun _ u hu => ?_) fun _ _ h => h
  have hfour : (s.visitMetadata (.recording f) seen).2.length = seen.length + 4 := by
    simp [Segment.visitMetadata, Visitor.recording]
  exact hfour ▸ hu

end Segment

/-! ### Scans of a domain -/

/-- The local roots of a domain and the pending exception. -/
def Domain.ownRoots (d : Domain) : List Word := d.frames.toList.flatMap LocalFrame.roots ++ d.pending.toList

theorem LocalFrames.scan_go_snd {τ : Type} (v : Visitor τ) (xs : List LocalFrame) (t : τ) :
    (scan.go v xs t).2 = (v.visitAll (xs.flatMap LocalFrame.roots) t).2 := by
  induction xs generalizing t with
  | nil => rfl
  | cons x xs ih =>
    rw [List.flatMap_cons, Visitor.visitAll_append]
    exact ih _

theorem Visitor.visitAll_append_snd {τ : Type} (v : Visitor τ) (ws xs : List Word) (t : τ) :
    (v.visitAll (ws ++ xs) t).2 = (v.visitAll xs (v.visitAll ws t).2).2 := by
  rw [visitAll_append]

namespace Act

/-- **A scan that shows exactly these roots**, in this order and to whatever visitor, and returns. -/
def Shows (scan : ∀ τ : Type, Visitor τ → τ → Act τ) (roots : List Word) (s : Active) : Prop :=
  ∀ (τ : Type) (v : Visitor τ) (t : τ), ∃ u, scan τ v t s = (.ok (v.visitAll roots t).2, u)

variable {τ : Type} {f : Word → Word} {s u : Active} {table : FrameTable} {b : BlockId} {y : Segment} {r : Registers}

theorem not_shows {scan : ∀ τ : Type, Visitor τ → τ → Act τ} {roots : List Word}
    (h : (scan _ (.recording id) []).wp s (fun seen _ => roots.length < seen.length) fun _ _ => True) :
    ¬ Shows scan roots s := by
  intro hshows
  obtain ⟨u, hrun⟩ := hshows _ (.recording id) []
  have hlt := (wp_of_ok hrun).1 h
  simp [Visitor.visitAll_recording] at hlt

theorem scanStack_emptyChunk (hl : s.world.layout = .native table) (hy : s.world.heap.stack? b = some y)
    (hc : y.EmptyChunk) (hb : table.Bounds valueReturn) (v : Visitor τ) (t : τ) :
    scanStack v b t s = (.ok (v.visitAll y.metadata t).2, s.put b (y.visitMetadata v t).1) := by
  have hscan : s.world.heap.scanStack (.native table) v b t =
      .ok (s.world.heap.setStack b (y.visitMetadata v t).1, (v.visitAll y.metadata t).2) := by
    unfold Heap.scanStack
    rw [Heap.stack_eq_ok_iff.2 hy]
    simp only [bind, Except.bind, Segment.scan_emptyChunk hc hb]
    rfl
  have hrun : (scanStack v b t).wp s (fun k u => k = (v.visitAll y.metadata t).2 ∧
      u = s.put b (y.visitMetadata v t).1) fun _ _ => False := by
    unfold scanStack
    simp only [wp_bind, wp_heap, wp_layout, hl, hscan]
    exact ⟨rfl, rfl⟩
  obtain ⟨_, _, hrun, rfl, rfl⟩ := exists_of_wp hrun
  exact hrun

theorem scanStack_length (hl : s.world.layout = .native table) (hy : s.world.heap.stack? b = some y)
    (hc : y.EmptyChunk) (hb : ¬ table.Bounds valueReturn) (seen : List Word) :
    (scanStack (.recording f) b seen).wp s
      (fun seen' u => seen.length + 4 < seen'.length ∧ u.domain = s.domain) fun _ _ => True := by
  have hlong := Segment.scan_emptyChunk_length (f := f) hc hb seen
  unfold scanStack
  simp only [wp_bind, wp_heap, wp_layout, hl, wp_check]
  refine ⟨?_, fun _ _ => trivial⟩
  rintro ⟨h', seen'⟩ hscan
  obtain ⟨_, hok, hscan⟩ := bind_eq_ok_iff.1 hscan
  obtain rfl := Option.some.inj (hy.symm.trans (Heap.stack_eq_ok_iff.1 hok))
  rcases hrun : Segment.scan (.native table) (.recording f) (y, seen) with ⟨e | _, y', seen₁⟩
  · rw [hrun] at hscan
    cases hscan
  · rw [hrun] at hscan
    obtain ⟨-, rfl⟩ := Prod.mk.inj (Except.ok.inj hscan)
    exact ⟨(wp_of_ok hrun).1 hlong, rfl⟩

/-- **What is shown of an empty chunk alone.** -/
theorem scanStack_shows_iff (hl : s.world.layout = .native table) (hy : s.world.heap.stack? b = some y)
    (hc : y.EmptyChunk) : Shows (fun _ v t => scanStack v b t) y.metadata s ↔ table.Bounds valueReturn := by
  refine ⟨fun hshows => ?_, fun hb τ v t => ⟨_, scanStack_emptyChunk hl hy hc hb v t⟩⟩
  by_contra hb
  exact not_shows (wp_mono (scanStack_length hl hy hc hb []) (fun _ _ h => h.1) fun _ _ h => h) hshows

theorem scanLocals_fst (v : Visitor τ) (t : τ) (s : Active) : (scanLocals v t).wp s
    (fun k u => k = (v.visitAll (s.domain.frames.toList.flatMap LocalFrame.roots) t).2 ∧
      u.domain.pending = s.domain.pending) fun _ _ => False :=
  ⟨LocalFrames.scan_go_snd v _ t, rfl⟩

theorem scanPending_fst (v : Visitor τ) (t : τ) (s : Active) : (scanPending v t).wp s
    (fun k _ => k = (v.visitAll s.domain.pending.toList t).2) fun _ _ => False := by
  unfold scanPending
  simp only [wp_bind, wp_domain]
  cases s.domain.pending <;> rfl

theorem scanOwn_fst (v : Visitor τ) (t : τ) (s : Active) : (do let t ← scanLocals v t; scanPending v t).wp s
    (fun k _ => k = (v.visitAll s.domain.ownRoots t).2) fun _ _ => False := by
  refine wp_bind_of (scanLocals_fst v t s) ?_ fun _ _ h => h
  rintro _ u ⟨rfl, hpending⟩
  refine wp_mono (scanPending_fst v _ u) (fun _ _ h => ?_) fun _ _ h => h
  rw [h, hpending, Domain.ownRoots, Visitor.visitAll_append_snd]

/-! ### New fibers of a domain -/

/-- **A domain that runs on a new fiber** of so many words: nothing was pushed on it. -/
structure OnNewFiber (s : Active) (table : FrameTable) (b : BlockId) (h : Handlers) (n : Nat) (own : List Word) :
    Prop where
  running : ∃ r y, Running s r y ∧ r.current = b ∧ r.used = 5 ∧ y.EmptyChunk ∧ y.metadata = h.slots ∧ y.capacity = n
  small : n ≤ Size.allocatable
  layout : s.world.layout = .native table
  own : s.domain.ownRoots = own

variable {h : Handlers} {n words : Nat} {own : List Word}

/-- **The header is written anew.** -/
theorem OnNewFiber.setRegisterSlot (hs : OnNewFiber s table b h n own) {offset : Option Int}
    (ho : Segment.Within n offset) :
    (setRegisterSlot offset).wp s (fun _ u => OnNewFiber u table b h n own) fun _ _ => False := by
  obtain ⟨r, y, hr, rfl, hused, hc, hmeta, rfl⟩ := hs.running
  obtain ⟨z, hset, hz, hzmeta, hcap⟩ := hc.setHeader hs.small ho
  have hpointer : r.pointer = -5 := by rw [Registers.pointer, hused]; rfl
  unfold Act.setRegisterSlot
  refine (wp_bind ..).2 (wp_registers_of hr.registers ?_)
  rw [hpointer]
  refine (wp_bind ..).2 ((wp_require ..).2 ⟨fun _ => ?_, fun hpos => hpos (by decide)⟩)
  refine (wp_bind ..).2 (wp_stack_of hr.stack ?_)
  show (check (y.setWord (-5) (Segment.headerOf offset)) >>= Act.setStack r.current).wp s _ _
  rw [hset, wp_bind, wp_check_ok, wp_setStack]
  exact ⟨⟨r, z, ⟨hr.registers, (stack?_put hr.stack _).trans (if_pos rfl), hr.capacity.trans hcap.symm,
    hcap.symm ▸ hr.used_le⟩, rfl, hused, hz, hzmeta.trans hmeta, hcap⟩, hs.small, hs.layout, hs.own⟩

theorem OnNewFiber.setRegisterSlots (hs : OnNewFiber s table b h n own) {offsets : List (Option Int)}
    (ho : ∀ offset ∈ offsets, Segment.Within n offset) :
    (offsets.forM Act.setRegisterSlot).wp s (fun _ u => OnNewFiber u table b h n own) fun _ _ => False := by
  induction offsets generalizing s with
  | nil => exact hs
  | cons offset rest ih =>
    show (Act.setRegisterSlot offset >>= fun _ => rest.forM Act.setRegisterSlot).wp s _ _
    exact wp_bind_of (hs.setRegisterSlot (ho offset List.mem_cons_self))
      (fun _ _ hu => ih hu fun o hmem => ho o (List.mem_cons_of_mem _ hmem)) fun _ _ h => h

/-- The roots of a domain are shown once the stack pointer is written back, which leaves a new fiber as it is. -/
theorem OnNewFiber.begin (hs : OnNewFiber s table b h n own) : ∃ b s' y, s'.world.layout = .native table ∧
    s'.domain.ownRoots = own ∧ s'.world.heap.stack? b = some y ∧ y.EmptyChunk ∧ y.metadata = h.slots ∧
    ∀ (τ : Type) (v : Visitor τ) (t : τ),
      scanRoots v t s = (do let t ← scanStack v b t; let t ← scanLocals v t; scanPending v t) s' := by
  obtain ⟨r, y, hr, -, hused, hc, hmeta, -⟩ := hs.running
  refine ⟨r.current, s.put r.current (y.pointed r.used hr.used_le y.owner), _, hs.layout, hs.own,
    (stack?_put hr.stack _).trans (if_pos rfl), ⟨hused, hc.header, hc.top⟩, hmeta, fun τ v t => ?_⟩
  have hcur : domain (s.put r.current (y.pointed r.used hr.used_le y.owner)) = (.ok s.domain, _) := rfl
  unfold scanRoots
  rw [bind_of_ok (syncStack_apply hr), bind_of_ok hcur, hr.current?]

/-- **What is shown of a domain that runs on a new fiber.** -/
theorem OnNewFiber.scanRoots_shows_iff (hs : OnNewFiber s table b h n own) :
    Shows (fun _ v t => scanRoots v t) (h.slots ++ own) s ↔ table.Bounds valueReturn := by
  obtain ⟨b, s', y, hlayout, hown, hy, hc, hmeta, hbegin⟩ := hs.begin
  refine ⟨fun hshows => ?_, fun hb τ v t => ?_⟩
  · by_contra hb
    refine not_shows ((wp_congr (hbegin _ _ _)).2 ?_) hshows
    refine wp_bind_of (scanStack_length hlayout hy hc hb []) ?_ fun _ _ h => h
    rintro seen u ⟨hlong, hdomain⟩
    refine wp_of_returns (scanOwn_fst _ seen u) fun seen' _ hseen => ?_
    rw [hseen, Visitor.visitAll_recording, List.length_append, List.length_append, hdomain, hown]
    exact Nat.add_lt_add_right (by simpa [Handlers.slots] using hlong) _
  · obtain ⟨k, u, hrun, hk⟩ :=
      exists_of_wp (scanOwn_fst v (v.visitAll y.metadata t).2 (s'.put b (y.visitMetadata v t).1))
    refine ⟨u, ?_⟩
    have hsame : (s'.put b (y.visitMetadata v t).1).domain.ownRoots = own := hown
    refine (hbegin τ v t).trans ?_
    rw [bind_of_ok (scanStack_emptyChunk hlayout hy hc hb v t), hrun, hk, hsame, hmeta, Visitor.visitAll_append_snd]

/-- **Making a fiber.** -/
theorem newStackOf_emptyChunk (hs : s.Settled) (hl : s.world.layout = .native table) (words : Nat) (h : Handlers) :
    (newStackOf words h).wp s (fun b u => u.domain = s.domain ∧ u.world.layout = s.world.layout ∧
      s.world.heap.contains b = false ∧ contextWords + words ≤ Size.allocatable ∧
      ∃ y, u.world.heap.stack? b = some y ∧ y.EmptyChunk ∧ y.metadata = h.slots ∧
        y.capacity = contextWords + words) fun _ _ => True := by
  unfold newStackOf
  simp only [wp_bind, wp_layout, hl, wp_check, wp_allocate]
  refine ⟨fun y hy => ⟨fun e _ => ?_, fun b h' ha => ?_⟩, fun _ _ => trivial⟩
  · exact wp_of_stops (stops_raiseExn .outOfMemory s) fun _ _ _ => trivial
  · have hbare := Segment.bare_fiber hy
    have hsize : 0 < (Object.stack y).size := Nat.succ_pos _
    obtain ⟨hnew, hcell⟩ := hs.heap.budgeted.balanced.alloc_cell? (.inl hsize) ha
    refine ⟨rfl, hl, by simp [Heap.contains, hnew], Segment.small_fiber hy, y, ?_, Segment.emptyChunk_fiber hy, ?_,
      hbare.capacity⟩
    · exact Heap.stack?_of_cell? ((hcell b).trans (if_pos rfl))
    · rw [Segment.metadata, hbare.handlers, hbare.link]
      rfl

theorem onNewFiber_loadStack (hl : s.world.layout = .native table) (hy : s.world.heap.stack? b = some y)
    (hc : y.EmptyChunk) (hmeta : y.metadata = h.slots) (hsmall : y.capacity ≤ Size.allocatable) :
    (loadStack b).wp s (fun _ u => OnNewFiber u table b h y.capacity s.domain.ownRoots) fun _ _ => True := by
  refine wp_loadStack_of hy ?_
  exact ⟨⟨_, y, ⟨rfl, hy, rfl, y.used_le⟩, rfl, hc.used, hc, hmeta, rfl⟩, hsmall, hl, rfl⟩

/-- **A domain comes to a new fiber**: it loads it, or saves the stack it leaves and switches. -/
theorem onNewFiber_of_enter {s₁ s₂ : Active} (hs : s.Settled) (hl : s.world.layout = .native table)
    (hnew : newStackOf words h s = (.ok b, s₁))
    (henter : loadStack b s₁ = (.ok (), s₂) ∨ ∃ c, switchStack b s₁ = (.ok c, s₂)) :
    OnNewFiber s₂ table b h (contextWords + words) s.domain.ownRoots := by
  obtain ⟨hdomain, hlayout, hfresh, hsmall, y, hy, hc, hmeta, hcap⟩ :=
    (wp_of_ok hnew).1 (newStackOf_emptyChunk hs hl words h)
  rw [← hcap] at hsmall ⊢
  rw [← hlayout] at hl
  rw [← hdomain]
  rcases henter with hload | ⟨c, hswitch⟩
  · exact (wp_of_ok hload).1 (onNewFiber_loadStack hl hy hc hmeta hsmall)
  · suffices hend : (switchStack b).wp s₁ (fun _ u => OnNewFiber u table b h y.capacity s₁.domain.ownRoots)
      fun _ _ => True from (wp_of_ok hswitch).1 hend
    unfold switchStack guardBlocking
    simp only [wp_bind, wp_domain, wp_require]
    refine ⟨fun _ => wp_mono (saveStack_saves s₁) ?_ fun _ _ _ => trivial, fun _ => trivial⟩
    rintro - u ⟨r, x, z, q, hsaves, rfl, rfl⟩
    -- the stack it leaves was live before the fiber was made
    have hne : b ≠ r.current := by
      rintro rfl
      obtain ⟨w, hw, -⟩ := hs.seated r (hdomain ▸ hsaves.registers)
      rw [Heap.contains_of_stack? hw] at hfresh
      cases hfresh
    have hy' : (s₁.stored r.current z q).world.heap.stack? b = some y :=
      (Heap.stack?_setStack_of_ne hne).trans hy
    exact wp_mono (onNewFiber_loadStack hl hy' hc hmeta hsmall) (fun _ _ hu => hu) fun _ _ _ => trivial

end Act

/-- **What is shown of a new fiber.**  Whatever descriptors the frame table is built from and gets later, both addresses
a fiber ends at are found, each with a boundary as long as nothing else was inserted last under it.  Of a new native
fiber of any size with any handlers, a scan shows exactly handlers and link, and returns, if and only if the table has
the boundary for values.  So it is once the fiber is current, however often its header is rewritten, and the roots of
the domain are then these, the local roots and the pending exception. -/
theorem Act.newFiber_shows_iff (ds es : List FrameDescriptor) {s s₁ : Active} {words : Nat} {h : Handlers} {b : BlockId}
    (hs : s.Settled) (hl : s.world.layout = .native (es.foldl .insert (.build ds)))
    (hnew : newStackOf words h s = (.ok b, s₁)) :
    (∀ a, a = valueReturn ∨ a = exceptionReturn → ∃ d, (es.foldl FrameTable.insert (.build ds)).find? a = some d ∧
      (d.isBoundary = true ↔ FrameTable.Spares (ds ++ es) a)) ∧
    (Shows (fun _ v t => scanStack v b t) h.slots s₁ ↔ FrameTable.Spares (ds ++ es) valueReturn) ∧
    ∀ s₂, loadStack b s₁ = (.ok (), s₂) ∨ (∃ c, switchStack b s₁ = (.ok c, s₂)) → ∀ offsets : List (Option Int),
      (∀ o ∈ offsets, Segment.Within (contextWords + words) o) →
        ∃ s₃, offsets.forM setRegisterSlot s₂ = (.ok (), s₃) ∧
          (Shows (fun _ v t => scanStack v b t) h.slots s₃ ↔ FrameTable.Spares (ds ++ es) valueReturn) ∧
          (Shows (fun _ v t => scanRoots v t) (h.slots ++ s.domain.ownRoots) s₃ ↔
            FrameTable.Spares (ds ++ es) valueReturn) := by
  have hbounds := FrameTable.bounds_foldl_insert_build ds es (.inl rfl)
  refine ⟨fun a ha => ?_, ?_, fun s₂ henter offsets ho => ?_⟩
  · refine ⟨_, FrameTable.find?_fiberEnd ds es ha, ?_⟩
    rw [← FrameTable.bounds_foldl_insert_build ds es ha, FrameTable.Bounds, FrameTable.find?_fiberEnd ds es ha]
    simp
  · obtain ⟨-, hlayout, -, -, y, hy, hc, hmeta, -⟩ := (wp_of_ok hnew).1 (newStackOf_emptyChunk hs hl words h)
    rw [← hbounds, ← hmeta]
    exact scanStack_shows_iff (hlayout.trans hl) hy hc
  · obtain ⟨_, s₃, hrun, hfiber⟩ := exists_of_wp ((onNewFiber_of_enter hs hl hnew henter).setRegisterSlots ho)
    refine ⟨s₃, hrun, ?_, hfiber.scanRoots_shows_iff.trans hbounds⟩
    obtain ⟨r, y, hr, rfl, -, hc, hmeta, -⟩ := hfiber.running
    rw [← hbounds, ← hmeta]
    exact scanStack_shows_iff hfiber.layout hr.stack hc

/-- A domain without a stack, and compiled code with one frame under an address. -/
def besideFrame (address : UInt64) : Active :=
  ⟨.fresh ⟨1⟩ 100, .initial {} (.native (.build [⟨address, 8, []⟩])) (.empty 100 100)⟩

theorem settled_besideFrame (address : UInt64) : (besideFrame address).Settled :=
  ⟨.empty 100 (by decide), nofun⟩

/-- A fiber beside other frames; the registers of its caller are where its own header is, and then nowhere. -/
theorem Act.newFiber_shows_iff_besideFrame : ∃ s₁ s₂ s₃,
    newStackOf 4 .zero (besideFrame 0x1000) = (.ok ⟨0⟩, s₁) ∧ loadStack ⟨0⟩ s₁ = (.ok (), s₂) ∧
    [some (-5), none].forM setRegisterSlot s₂ = (.ok (), s₃) ∧
    Shows (fun _ v t => scanStack v ⟨0⟩ t) [.unit, .unit, .unit, .unit] s₁ ∧
    Shows (fun _ v t => scanRoots v t) [.unit, .unit, .unit, .unit] s₃ := by
  obtain ⟨s₁, hnew⟩ : ∃ s₁, newStackOf 4 .zero (besideFrame 0x1000) = (.ok ⟨0⟩, s₁) :=
    exists_of_fst (by decide +kernel)
  have hload : (loadStack ⟨0⟩ s₁).1 = .ok () := by
    obtain rfl : (newStackOf 4 .zero (besideFrame 0x1000)).2 = s₁ := congrArg Prod.snd hnew
    decide +kernel
  obtain ⟨s₂, hload⟩ := exists_of_fst hload
  obtain ⟨-, hstack, hcurrent⟩ := newFiber_shows_iff [⟨0x1000, 8, []⟩] []
    (settled_besideFrame 0x1000) rfl hnew
  have hends : FrameTable.Spares ([⟨0x1000, 8, []⟩] ++ []) valueReturn := by
    unfold FrameTable.Spares
    decide
  obtain ⟨s₃, hrun, -, hroots⟩ := hcurrent s₂ (.inl hload) [some (-5), none]
    (by simp [Segment.Within, show contextWords + 4 = 20 from rfl])
  exact ⟨s₁, s₂, s₃, hnew, hload, hrun, hstack.2 hends, hroots.2 hends⟩

/-- **A descriptor can be inserted in place of a boundary**, and then more is shown of a new fiber, or the scan does not
return. -/
theorem Act.not_newFiber_shows :
    (¬ ∀ ds es : List FrameDescriptor, ∀ a, a = valueReturn ∨ a = exceptionReturn →
      ∃ d, (es.foldl FrameTable.insert (.build ds)).find? a = some d ∧ d.isBoundary = true) ∧
    ¬ ∀ (ds es : List FrameDescriptor) (s s₁ : Active) (words : Nat) (h : Handlers) (b : BlockId), s.Settled →
      s.world.layout = .native (es.foldl .insert (.build ds)) → newStackOf words h s = (.ok b, s₁) →
        Shows (fun _ v t => scanStack v b t) h.slots s₁ := by
  have hfind : (FrameTable.build [⟨valueReturn, 8, []⟩]).find? valueReturn = some ⟨valueReturn, 8, []⟩ := by
    decide +kernel
  refine ⟨fun hends => ?_, fun hshows => ?_⟩
  · obtain ⟨d, hd, hb⟩ := hends [⟨valueReturn, 8, []⟩] [] valueReturn (.inl rfl)
    obtain rfl := Option.some.inj (hfind.symm.trans hd)
    cases hb
  · obtain ⟨s₁, hnew⟩ : ∃ s₁, newStackOf 4 .zero (besideFrame valueReturn) = (.ok ⟨0⟩, s₁) :=
      exists_of_fst (by decide +kernel)
    have hall := hshows [⟨valueReturn, 8, []⟩] [] _ s₁ 4 .zero ⟨0⟩ (settled_besideFrame valueReturn) rfl hnew
    obtain ⟨-, hlayout, -, -, y, hy, hc, hmeta, -⟩ :=
      (wp_of_ok hnew).1 (newStackOf_emptyChunk (settled_besideFrame valueReturn) rfl 4 .zero)
    rw [← hmeta, scanStack_shows_iff hlayout hy hc] at hall
    obtain ⟨d, hd, hb⟩ := hall
    obtain rfl := Option.some.inj (hfind.symm.trans hd)
    cases hb

end FiberStacks
