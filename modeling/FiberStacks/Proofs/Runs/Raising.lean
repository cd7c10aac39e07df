import FiberStacks.Proofs.Heap.Books
import FiberStacks.Proofs.Locks.Region

/-!
# What a raise delivers

An exception with arguments is a new block, and a text among them another one.  Where the heap has room for them the
exception is pending with all it carries; where it has not, the identifier of `Out_of_memory` is, which is there from
the start.

* `Active.Catching` — a domain that can raise all exceptions, inside a protected region;
* `Act.Delivers` — what is pending when an action has raised;
* `Heap.Carries` — an exception in the heap, with its text;
* `delivers_raiseText`, `delivers_raiseFailure` — **an exception with a text, or `Out_of_memory`**;
* `Active.Raises`, `raises_invalidArgument` — a raise stops at a protected region, and outside of all it ends the
  process.
-/

namespace FiberStacks

open FiberStacks.Action

variable {α : Type} {ws : List Word} {s : Active} {h h' : Heap} {P Q : Word → Heap → Prop}

/-- The identifier of a predefined exception in the table. -/
def Exn.identifier (ws : List Word) (e : Exn) : Word := ws[e.index]?.getD .unit

/-- **A domain that raises**: it can use the table of exceptions, it is inside a protected region, and its lock records
are in order. -/
structure Active.Catching (ws : List Word) (s : Active) : Prop where
  table : s.world.table = some ws
  ready : s.domain.ready = true
  within : s.domain.handlers ≠ []
  locks : ∃ others, s.LocksInOrder others

/-- An exception with a text: a block with its identifier, and another one with the text. -/
def Heap.Carries (h : Heap) (w : Word) (tag : Word) (x : String) : Prop :=
  ∃ b n, w = .ofBlock b ∧ h.get? b = some (.block 0 [tag, .ofBlock n]) ∧ h.get? n = some (.text x)

theorem Active.Catching.adopt (hs : s.Catching ws) (h : Heap) :
    Active.Catching ws { s with world := s.world.adopt h } := ⟨hs.table, hs.ready, hs.within, hs.locks⟩

theorem Active.Catching.note (hs : s.Catching ws) (n : Notice) :
    Active.Catching ws { s with world := s.world.note n } := ⟨hs.table, hs.ready, hs.within, hs.locks⟩

namespace Act

/-- **The action raises**, and `P` holds of the pending exception and the heap it leaves. -/
def Delivers (a : Act α) (s : Active) (P : Word → Heap → Prop) : Prop :=
  a.wp s (fun _ _ => False) fun e t => e = .raised ∧ ∃ w, t.domain.pending = some w ∧ P w t.world.heap

theorem Delivers.mono {a : Act α} (ha : a.Delivers s P) (hP : ∀ w h, P w h → Q w h) : a.Delivers s Q :=
  wp_mono ha (fun _ _ hf => hf) fun _ _ h => h.imp_right fun hw => hw.imp fun w hw => hw.imp_right (hP w _)

/-- A block is allocated first, or there is no room for it. -/
theorem Delivers.allocate {o : Object} {path : AllocPath} {f : Except AllocError BlockId → Act α}
    (hfull : s.world.heap.available < o.size → ∀ e, (f (.error e)).Delivers s P)
    (hok : ∀ b h, s.world.heap.alloc o path = .ok (b, h) →
      (f (.ok b)).Delivers { s with world := s.world.adopt h } P) : (allocate o path >>= f).Delivers s P :=
  (wp_bind ..).2 (wp_allocate.2 ⟨fun e he => hfull (Heap.alloc_eq_error_iff.1 he).1 e, hok⟩)

theorem Delivers.require {p : Prop} [Decidable p] {f : Fault} {a : Act α} (hp : p) (ha : a.Delivers s P) :
    (Act.require p f >>= fun _ => a).Delivers s P :=
  (wp_bind ..).2 ((wp_require ..).2 ⟨fun _ => ha, fun hn => absurd hp hn⟩)

theorem delivers_raise (w : Word) (hs : s.Catching ws) :
    (raise w : Act α).Delivers s fun w' h => w' = w ∧ h = s.world.heap := by
  obtain ⟨others, hlocks⟩ := hs.locks
  cases hc : s.domain.handlers with
  | nil => exact absurd hc hs.within
  | cons c cs =>
    obtain ⟨locks, hr, -, -⟩ := raise_apply (α := α) (w := w) hlocks hc
    exact (wp_of_error hr).2 ⟨rfl, w, rfl, rfl, rfl⟩

theorem wp_exception_iff {Q : Word → Active → Prop} {E : Stop → Active → Prop} (e : Exn)
    (htable : s.world.table = some ws) (hready : s.domain.ready = true) :
    (exception e).wp s Q E ↔ Q (e.identifier ws) s := by
  have he : s.exception e = .ok (e.identifier ws) := by
    simp only [Active.exception, htable, hready, if_true]
    rfl
  exact wp_of_ok (exception_of_ok he)

theorem wp_exception {Q : Word → Active → Prop} {E : Stop → Active → Prop} (e : Exn) (hs : s.Catching ws) :
    (exception e).wp s Q E ↔ Q (e.identifier ws) s :=
  wp_exception_iff e hs.table hs.ready

/-- **A predefined exception** needs no room. -/
theorem delivers_raiseExn (e : Exn) (hs : s.Catching ws) :
    (raiseExn e : Act α).Delivers s fun w h => w = e.identifier ws ∧ h = s.world.heap :=
  (wp_bind ..).2 ((wp_exception e hs).2 (delivers_raise _ hs))

/-- **An exception with arguments** is a new block, or there is no room for it. -/
theorem delivers_raiseWith (tag : Word) (args : List Word) (hargs : 1 + args.length ≤ maxYoungWords)
    (hs : s.Catching ws) : (raiseWith tag args : Act α).Delivers s fun w h =>
      (∃ b, w = .ofBlock b ∧ s.world.heap.alloc (.block 0 (tag :: args)) .normal = .ok (b, h)) ∨
        s.world.heap.available < args.length + 1 ∧ w = Exn.outOfMemory.identifier ws ∧ h = s.world.heap := by
  refine Delivers.require hargs (Delivers.allocate (fun hfull _ => ?_) fun b h ha => ?_)
  · exact (delivers_raiseExn .outOfMemory hs).mono fun w h hw => .inr ⟨hfull, hw⟩
  · exact (delivers_raise _ (hs.adopt h)).mono fun w h' hw => .inl ⟨b, hw.1, hw.2 ▸ ha⟩

/-- **An exception with a text**, or there is no room for the text and the exception. -/
theorem delivers_raiseText (tag : Word) (x : String) (hb : s.world.heap.Balanced) (hs : s.Catching ws) :
    (raiseText tag x : Act α).Delivers s fun w h =>
      if (Object.text x).size + 2 ≤ s.world.heap.available then h.Carries w tag x
      else w = Exn.outOfMemory.identifier ws := by
  refine Delivers.allocate (fun hfull _ => ?_) fun n h₁ hn => ?_
  · refine (delivers_raiseExn .outOfMemory hs).mono fun w h hw => ?_
    rw [if_neg (by omega)]
    exact hw.1
  · obtain ⟨hlive, hmax, hsize⟩ := Heap.alloc_words hn
    have hroom : h₁.available = s.world.heap.available - (Object.text x).size := by
      unfold Heap.available at hsize ⊢
      omega
    have hpos : 0 < (Object.text x).size := Nat.succ_pos _
    have htext := (hb.alloc_cell? (.inl hpos) hn).2 n
    rw [if_pos rfl] at htext
    refine (delivers_raiseWith tag [.ofBlock n] (Nat.le_add_left 2 254) (hs.adopt h₁)).mono ?_
    rintro w h (⟨b, rfl, ha⟩ | ⟨hfull, hw, -⟩)
    · have hfits : 2 ≤ h₁.available := (Heap.alloc_words ha).2.2
      have hpos' : 0 < (Object.block 0 [tag, .ofBlock n]).size := Nat.succ_pos 1
      obtain ⟨hnew, hcell⟩ := (hb.alloc (.inl hpos) hn).alloc_cell? (.inl hpos') ha
      have hne : n ≠ b := by
        rintro rfl
        cases htext.symm.trans hnew
      rw [if_pos (by omega)]
      refine ⟨b, n, rfl, ?_, ?_⟩
      · rw [Heap.get?, hcell, if_pos rfl]
        rfl
      · rw [Heap.get?, hcell, if_neg hne, htext]
        rfl
    · change h₁.available < 2 at hfull
      rw [if_neg (by omega)]
      exact hw

/-- **An invalid argument** is raised with its text where there is room for it. -/
theorem delivers_invalidArgument (x : String) (hb : s.world.heap.Balanced) (hs : s.Catching ws) :
    (raiseFailure (.invalidArgument x) : Act α).Delivers s fun w h =>
      if (Object.text x).size + 2 ≤ s.world.heap.available then h.Carries w (Exn.invalidArgument.identifier ws) x
      else w = Exn.outOfMemory.identifier ws :=
  (wp_bind ..).2 ((wp_exception _ hs).2 (delivers_raiseText _ x hb hs))

end Act

/-! ### Inside protected regions and outside -/

/-- **A domain that can raise**, inside a protected region or not. -/
structure Active.CanRaise (ws : List Word) (s : Active) : Prop where
  table : s.world.table = some ws
  ready : s.domain.ready = true
  locks : ∃ others, s.LocksInOrder others

/-- **How a raise stops**: at the innermost protected region, and if there is none with the end of the process. -/
def Active.Raises (s : Active) (e : Stop) (t : Active) : Prop :=
  (∃ w, t.domain.pending = some w) ∧
    if s.domain.handlers = [] then ∃ text, e = .fatal (.uncaught text) else e = .raised

theorem Active.CanRaise.adopt (hs : s.CanRaise ws) (h : Heap) :
    Active.CanRaise ws { s with world := s.world.adopt h } := ⟨hs.table, hs.ready, hs.locks⟩

namespace Act

theorem raises_raise (w : Word) (hs : s.CanRaise ws) : (raise w : Act α).wp s (fun _ _ => False) s.Raises := by
  obtain ⟨others, hlocks⟩ := hs.locks
  cases hc : s.domain.handlers with
  | nil =>
    unfold raise
    simp only [wp_bind, wp_modifyDomain, wp_domain, hc, wp_heap, wp_die]
    exact ⟨⟨w, rfl⟩, by rw [hc]; exact ⟨_, rfl⟩⟩
  | cons c cs =>
    obtain ⟨locks, hr, -, -⟩ := raise_apply (α := α) (w := w) hlocks hc
    exact (wp_of_error hr).2 ⟨⟨w, rfl⟩, by rw [hc]; rfl⟩

theorem raises_raiseExn (e : Exn) (hs : s.CanRaise ws) : (raiseExn e : Act α).wp s (fun _ _ => False) s.Raises :=
  (wp_bind ..).2 ((wp_exception_iff e hs.table hs.ready).2 (raises_raise _ hs))

theorem raises_raiseWith (tag : Word) (args : List Word) (hargs : 1 + args.length ≤ maxYoungWords)
    (hs : s.CanRaise ws) : (raiseWith tag args : Act α).wp s (fun _ _ => False) s.Raises := by
  unfold raiseWith
  simp only [wp_bind, wp_require, wp_allocate]
  exact ⟨fun _ => ⟨fun _ _ => raises_raiseExn .outOfMemory hs, fun _ h _ => raises_raise _ (hs.adopt h)⟩,
    fun hn => absurd hargs hn⟩

/-- **An invalid argument is raised**, or `Out_of_memory` in its place. -/
theorem raises_invalidArgument (x : String) (hs : s.CanRaise ws) :
    (raiseFailure (.invalidArgument x) : Act α).wp s (fun _ _ => False) s.Raises := by
  unfold raiseFailure raiseExnText raiseText
  rw [wp_bind, wp_exception_iff _ hs.table hs.ready, wp_bind, wp_allocate]
  exact ⟨fun _ _ => raises_raiseExn .outOfMemory hs,
    fun n h _ => raises_raiseWith _ [.ofBlock n] (Nat.le_add_left 2 254) (hs.adopt h)⟩

end Act

end FiberStacks
