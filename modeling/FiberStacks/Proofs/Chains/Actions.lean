import FiberStacks.Proofs.Chains.Stacks
import FiberStacks.Proofs.Handling

/-!
# Actions and chains

Which actions leave the links of stacks alone, and which only cut a link or put a new stack on top of a chain.

* `Act.Quiet` — actions that leave the links alone: saving, loading and switching stacks, and what is beside them;
* `Act.Safe` — actions after which all links still lead to an end: growing the current stack, pushing.
-/

namespace FiberStacks.Act

open FiberStacks.Action

variable {α β : Type} {s t : Active}

/-! ### Actions that leave the links alone -/

def KeepsLinks (s t : Active) : Prop := s.world.heap.Quiet t.world.heap

/-- **The action leaves the links alone**, however it ends. -/
def Quiet (a : Act α) : Prop := a.Relates KeepsLinks

theorem KeepsLinks.of_heap_eq (h : t.world.heap = s.world.heap) : KeepsLinks s t := by
  unfold KeepsLinks
  rw [h]
  exact .refl _

theorem bookkeeping_keepsLinks : Bookkeeping KeepsLinks where
  trans h h' := Heap.Quiet.trans h h'
  of_alike h := .of_heap_eq h.heap
  alloc ho _ ha := Heap.quiet_alloc ha ho

theorem quiet_of_beside {a : Act α} (ha : a.Beside) : a.Quiet := bookkeeping_keepsLinks.relates ha

theorem Quiet.bind {a : Act β} {f : β → Act α} (ha : a.Quiet) (hf : ∀ x, (f x).Quiet) : (a >>= f).Quiet :=
  bookkeeping_keepsLinks.bind ha hf

theorem parent?_setPointer {x y : Segment} {p : Int} (h : x.setPointer p = .ok y) : y.parent? = x.parent? := by
  unfold Segment.setPointer at h
  split at h
  · rw [← Except.ok.inj h]
    rfl
  · cases h

theorem handling_quiet : Handling @Quiet where
  bind := Quiet.bind
  beside := quiet_of_beside
  syncStack := by
    intro s
    refine wp_syncStack_of (fun _ => .refl _) (fun r x y _ hx hy => ?_) fun _ => .refl _
    exact Heap.quiet_setStack hx (parent?_setPointer hy)
  markDirty b := by
    intro s
    refine wp_markDirty_of (.refl _) (fun x _ hx _ => ?_) fun _ => .refl _
    exact Heap.quiet_setStack hx rfl
  loadStack b := (quiet_of_beside (beside_stack b)).bind fun _ _ => KeepsLinks.of_heap_eq rfl

/-! ### Actions that keep all chains ending -/

/-- If all links lead to an end, they do afterwards. -/
def KeepsEnds (s t : Active) : Prop :=
  s.world.heap.FreeListed → s.world.heap.links.Ending → t.world.heap.FreeListed ∧ t.world.heap.links.Ending

/-- **All links lead to an end after the action**, however it ends, if they did before. -/
def Safe (a : Act α) : Prop := a.Relates KeepsEnds

theorem KeepsLinks.keepsEnds (h : KeepsLinks s t) : KeepsEnds s t :=
  fun hf hL => ⟨h.freeListed hf, (h.links hf).symm ▸ hL⟩

theorem KeepsEnds.trans {u : Active} (h : KeepsEnds s t) (h' : KeepsEnds t u) : KeepsEnds s u :=
  fun hf hL => (h hf hL).elim h'

theorem Quiet.safe {a : Act α} (ha : a.Quiet) : a.Safe := fun s =>
  wp_mono (ha s) (fun _ _ h => h.keepsEnds) fun _ _ h => h.keepsEnds

theorem Safe.wp_of {a : Act α} (ha : a.Safe) (h : KeepsEnds s t) :
    a.wp t (fun _ u => KeepsEnds s u) fun _ u => KeepsEnds s u :=
  wp_mono (ha t) (fun _ _ hu => h.trans hu) fun _ _ hu => h.trans hu

theorem handling_safe : Handling @Safe :=
  handling_quiet.mono Quiet.safe fun ha hf => Relates.bind (R := KeepsEnds) (fun h h' => h.trans h') ha hf

theorem Safe.ending {a : Act α} (ha : a.Safe) (hf : s.world.heap.FreeListed) (hL : s.world.heap.links.Ending) :
    (a s).2.world.heap.links.Ending :=
  (wp_iff_snd.1 (ha s) hf hL).2

theorem safe_retire (b : BlockId) (a : α) : Safe (do setStack b (← stack b).retire; return a) := by
  intro s
  simp only [wp_bind, wp_stack, wp_setStack, wp_pure]
  refine ⟨fun x hx hf hL => ⟨hf.set b _, ?_⟩, fun _ => (KeepsLinks.keepsEnds (.refl _))⟩
  change (s.world.heap.setStack b x.retire).links.Ending
  rw [Heap.links_setStack hx, Segment.parent?_retire]
  exact hL.cut b

theorem ending_alloc {h h' : Heap} {old b : BlockId} {x y : Segment} {path : AllocPath} (hf : h.FreeListed)
    (hL : h.links.Ending) (hx : h.stack? old = some x) (hy : y.parent? = x.parent?)
    (ha : h.alloc (.stack y) path = .ok (b, h')) : h'.links.Ending := by
  rcases Heap.links_alloc_stack hf ha with ⟨hnew, hl, -⟩ | ⟨-, hl⟩
  · have hlink := Heap.links_of_stack? hx
    rw [hl, hy]
    obtain ⟨l, hc⟩ := hL old (by simp [hlink])
    cases hc with
    | last hb =>
      rw [Option.some.inj (hlink.symm.trans hb)]
      exact hL.cut b
    | cons hb hp =>
      rw [Option.some.inj (hlink.symm.trans hb)]
      exact hL.fresh hnew hp
  · exact hl.symm ▸ hL

/-- **Growth** puts the new stack on top of the chain of the old one, and cuts the old one off. -/
theorem safe_tryGrow (required : Nat) (saved : List Word) : (tryGrow required saved).Safe := by
  refine handling_safe.bind (handling_safe.beside (beside_guardBlocking .grow)) fun _ =>
    handling_safe.bind handling_safe.saveStack fun old s => ?_
  have hrefl : KeepsEnds s s := KeepsLinks.keepsEnds (.refl _)
  rw [wp_bind, wp_stack]
  refine ⟨fun x hx => ?_, fun _ => hrefl⟩
  rw [wp_bind, wp_domain]
  simp only
  rw [wp_bind, wp_check_add]
  refine ⟨fun _ => ?_, fun _ => hrefl⟩
  split
  · exact hrefl
  · exact hrefl
  · simp only [enterFrame, wp_bind, wp_noteSize, wp_check, wp_domain, wp_modifyDomain, wp_pure, wp_allocate]
    refine ⟨fun _ => ⟨fun y _ => ⟨fun z _ => ⟨fun u hu => ⟨fun e _ => ?_, fun new h ha => ?_⟩, fun _ _ => hrefl⟩,
      fun _ _ => hrefl⟩, fun _ _ => hrefl⟩, fun _ => hrefl⟩
    · exact ((handling_safe.beside (beside_leaveFrame _)).wp_of hrefl)
    · -- the new stack has the parent of the old one
      have hparent : u.parent? = x.parent? := congrArg Word.block? (Segment.copyMetadata_fields hu).2.2.2.1
      have hgrown : ∀ t : Active, t.world.heap = h → KeepsEnds s t := by
        rintro t rfl hf hL
        exact ⟨hf.alloc ha, ending_alloc hf hL hx hparent ha⟩
      have hmoved : ∀ saved : List Word, Safe (do
          loadStack new
          setStack old (← stack old).retire
          return (Except.ok new, saved) : Act (Except Failure BlockId × List Word)) := fun saved =>
        handling_safe.bind (handling_safe.loadStack new) fun _ => safe_retire old _
      refine wp_mono ((handling_safe.beside (beside_leaveFrame _)).wp_of (hgrown _ rfl)) (fun saved t ht => ?_)
        fun _ _ ht => ht
      refine Safe.wp_of ?_ ht
      split
      · exact hmoved saved
      · exact handling_safe.bind (Quiet.safe ((relates_require _ _).mono bookkeeping_keepsLinks.of_sameStacks)) fun _ =>
          handling_safe.bind (handling_safe.markDirty new) fun _ => hmoved saved

theorem parent?_setWord {x y : Segment} {o : Int} {w : Word} (h : x.setWord o w = .ok y) : y.parent? = x.parent? := by
  unfold Segment.setWord Segment.setWord? at h
  cases hd : x.depth? o with
  | none => simp [hd] at h
  | some k =>
    simp only [hd, Option.map_some, Except.ok.injEq] at h
    rw [← h]
    rfl

/-- **A push** changes links only by growth. -/
theorem safe_push (w : Word) : (push w).Safe := by
  refine handling_safe.bind (handling_safe.beside (beside_guardBlocking .push)) fun _ =>
    handling_safe.bind (handling_safe.ensure safe_tryGrow 1) fun _ =>
      handling_safe.bind (handling_safe.beside beside_registers) fun r => ?_
  refine Quiet.safe fun s => ?_
  simp only [wp_bind, wp_stack, wp_check, wp_setStack, wp_modifyDomain]
  refine ⟨fun x hx => ⟨fun y hy => ?_, fun _ _ => .refl _⟩, fun _ => .refl _⟩
  exact Heap.quiet_setStack hx (parent?_setWord hy)

end FiberStacks.Act
