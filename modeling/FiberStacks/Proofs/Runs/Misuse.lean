import FiberStacks.Proofs.Runs.Events
import FiberStacks.Proofs.Runs.Raising

/-!
# Capsules that are empty or spent

Taking the head out of a capsule and cloning it beside all domains return what is wrong with it.  A domain raises the
same as an invalid argument with its text, if the heap has room for text and exception, and `Out_of_memory` if not.

* `Capsule.Misused` — what is wrong with a capsule that has no head to give;
* `delivers_resume`, `delivers_cloneContinuation` — what a domain raises;
* `Machine.Refuses`, `Upright.refuses` — **whoever asks for the head of such a capsule is refused**.
-/

namespace FiberStacks

open FiberStacks.Action

/-- What is wrong with a capsule that has no head to give. -/
inductive Capsule.Misused : Capsule → CapsuleMisuse → Prop where
  | empty : Misused .empty .empty
  | taken : Misused .taken .alreadyTaken

namespace Heap

variable {h : Heap} {k : BlockId} {c : Capsule} {x : CapsuleMisuse}

theorem fullHead_of_misused (hk : h.capsule? k = some c) (hc : c.Misused x) : h.fullHead k = .error x.toFailure := by
  cases hc <;> simp [fullHead, hk, Capsule.fullHead, Except.mapError]

theorem takeHead_of_misused (hk : h.capsule? k = some c) (hc : c.Misused x) : h.takeHead k = .error x.toFailure := by
  cases hc <;> simp [takeHead, hk, Capsule.take, Capsule.fullHead, Except.mapError, Except.map]

theorem cloneChain_of_misused (hk : h.capsule? k = some c) (hc : c.Misused x) :
    h.cloneChain k = .ok (.error x.toFailure, h) := by
  rw [cloneChain, fullHead_of_misused hk hc]

end Heap

namespace Act

variable {α β : Type} {ws : List Word} {s : Active} {k : BlockId} {c : Capsule} {x : CapsuleMisuse}
  {P : Word → Heap → Prop}

theorem Delivers.bind {a : Act β} {f : β → Act α} (ha : a.Delivers s P) : (a >>= f).Delivers s P :=
  (wp_bind ..).2 (wp_mono ha (fun _ _ hf => hf.elim) fun _ _ h => h)

theorem Delivers.map {a : Act β} {f : β → α} (ha : a.Delivers s P) : (f <$> a).Delivers s P :=
  (wp_map ..).2 ha

/-- What is pending when the head of a capsule was refused: the invalid argument with its text, if there is room for
it. -/
def Refused (ws : List Word) (h : Heap) (x : CapsuleMisuse) (w : Word) (h' : Heap) : Prop :=
  if (Object.text x.message).size + 2 ≤ h.available then h'.Carries w (Exn.invalidArgument.identifier ws) x.message
  else w = Exn.outOfMemory.identifier ws

theorem delivers_resume (hs : s.Settled) (hw : s.Catching ws) (hk : s.world.heap.capsule? k = some c)
    (hc : c.Misused x) : (resume k).Delivers s (Refused ws s.world.heap x) := by
  have htake : (takeHead k).Delivers s (Refused ws s.world.heap x) := by
    unfold takeHead
    refine (wp_bind ..).2 ((wp_heap ..).2 ?_)
    rw [Heap.takeHead_of_misused hk hc]
    exact delivers_invalidArgument x.message hs.heap.budgeted.balanced hw
  exact htake.bind

theorem delivers_cloneContinuation (hs : s.Settled) (hw : s.Catching ws) (hk : s.world.heap.capsule? k = some c)
    (hc : c.Misused x) : (cloneContinuation k).Delivers s (Refused ws s.world.heap x) := by
  unfold cloneContinuation
  refine wp_bind_of_returns (syncStack_returns hs) ?_
  rintro - t ⟨ht, h, rfl, hroom⟩
  have hclone := Heap.cloneChain_of_misused (ht.heap.capsules k c id hk) hc
  refine (wp_bind ..).2 ((wp_heap ..).2 ((wp_bind ..).2 ?_))
  rw [hclone]
  -- the heap is taken over as it is
  change Delivers (raiseFailure (.invalidArgument x.message))
    ⟨s.domain, (s.world.adopt h).adopt (s.world.adopt h).heap⟩ _
  rw [World.adopt_heap]
  refine (delivers_invalidArgument x.message ht.heap.inOrder.budgeted.balanced (hw.adopt h)).mono fun w h' hw' => ?_
  rwa [World.heap_adopt, hroom] at hw'

end Act

namespace Machine

variable {ws : List Word} {m : Machine} {k : BlockId} {c : Capsule} {x : CapsuleMisuse}

/-- **The head of a capsule is refused** to all who ask for it. -/
structure Refuses (m : Machine) (k : BlockId) (x : CapsuleMisuse) : Prop where
  take : m.perform (.take k) = some (.failed x.toFailure, m)
  clone : m.perform (.clone k) = some (.failed x.toFailure, m)
  /-- A domain that is ready, and inside a protected region, raises it. -/
  ask : ∀ d y ws e, m.domain? d = some y → y.ready = true → y.handlers ≠ [] → m.world.table = some ws →
    e = .resume k ∨ e = .clone k ∨ e = .resumeCloned k →
    ∃ m' y' w, m.perform (.ask d e) = some (.stopped .raised, m') ∧ m'.domain? d = some y' ∧ y'.pending = some w ∧
      Act.Refused ws m.world.heap x w m'.world.heap

theorem Upright.locksInOrder {y : Domain} (h : m.Upright) (hy : y ∈ m.domains) :
    Active.LocksInOrder [] ⟨y, m.world⟩ := by
  unfold Active.LocksInOrder
  rw [h.unlocked y hy]
  exact ⟨.nil, nofun, List.nil_subperm⟩

theorem Upright.refuses (h : m.Upright) (hk : m.world.heap.capsule? k = some c) (hc : c.Misused x) : m.Refuses k x where
  take := by
    rw [Machine.perform, Heap.takeHead_of_misused hk hc]
    rfl
  clone := by
    rw [Machine.perform, Heap.cloneChain_of_misused hk hc]
    simp [setHeap]
  ask d y ws e hy hready hwithin htable he := by
    obtain ⟨as, bs, hm⟩ := domain?_eq_some hy
    have hmem : y ∈ m.domains := by simp [hm]
    have hs : Active.Settled ⟨y, m.world⟩ := ⟨h.heap, h.seated y hmem⟩
    have hw : Active.Catching ws ⟨y, m.world⟩ := ⟨htable, hready, hwithin, [], h.locksInOrder hmem⟩
    have hdelivers : e.act.Delivers ⟨y, m.world⟩ (Act.Refused ws m.world.heap x) := by
      obtain rfl | rfl | rfl := he
      · exact (Act.delivers_resume hs hw hk hc).map
      · exact (Act.delivers_cloneContinuation hs hw hk hc).map
      · exact (Act.delivers_cloneContinuation hs hw hk hc).bind.map
    obtain ⟨stop, t, hrun, rfl, w, hpending, hrefused⟩ := exists_error_of_wp hdelivers
    have hact : m.act d e.act = some (.error .raised, { m.setDomain t.domain with world := t.world }) := by
      rw [Machine.act, hy, Option.map_some, hrun]
    obtain ⟨y₁, t₁, hy₁, hs₁, hrun₁, -, hafter⟩ := h.act hact
    obtain rfl := Option.some.inj (hy.symm.trans hy₁)
    obtain rfl := (Prod.mk.inj (hrun.symm.trans hrun₁)).2
    have hlasts := ((wp_of_error hrun).1 (e.lasts hs)).1
    exact ⟨_, t.domain, w, by rw [Machine.perform, hact]; rfl, (hafter _ hlasts).2, hpending, hrefused⟩

end Machine

end FiberStacks
