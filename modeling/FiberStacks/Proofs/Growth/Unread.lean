import FiberStacks.Proofs.Growth.Steps
import FiberStacks.Proofs.Handling

/-!
# Nobody reads the log

Actions add entries to the log and never look at it.  Whether entries of the level debug are written makes a difference
to those alone that show a size: they work out its bytes, and an action stops where these are more than 64 bits count.

* `founding_unread` — **handling stacks and making new ones does not read the log**, and shows no size;
* `Notice.Oversized`, `Act.Audible` — **writing the log makes no difference unless an entry is oversized**;
* `founding_audible`, `audible_noteSize`, `audible_tryGrow` — so it is with all calls on stacks.
-/

namespace FiberStacks

open FiberStacks.Action

/-- **An entry about a size with more bytes than 64 bits count.** -/
def Notice.Oversized (n : Notice) : Prop := ∃ words, n.size? = some words ∧ Size.bound ≤ words * wordBytes

namespace Act

variable {α β : Type}

/-! ### Steps on stacks -/

theorem unread_check : ∀ x : Except Fault α, (check x).Unread
  | .ok a => (beside_pure a).unread
  | .error f => unread_of_silent fun s => ⟨.error (.fault f), s, fun _ _ => rfl⟩

theorem unread_setHeap (h : Heap) : (setHeap h).Unread := by
  intro s
  obtain ⟨asked, hasked, hadopt⟩ := exists_adopt s.world h
  exact ⟨.ok (), { s with world := { s.world with heap := h } }, asked, hasked, fun v l =>
    congrArg (fun w : World => (Except.ok (), ({ s with world := w } : Active))) (hadopt v l)⟩

theorem unread_setStack (b : BlockId) (x : Segment) : (setStack b x).Unread :=
  beside_heap.unread.bind fun _ => unread_setHeap _

theorem unread_syncStack : syncStack.Unread := by
  refine beside_domain.unread.bind fun d => ?_
  split
  · exact (beside_pure _).unread
  · exact (beside_stack _).unread.bind fun _ => (unread_check _).bind fun _ => unread_setStack _ _

theorem unread_markDirty (b : BlockId) : (markDirty b).Unread :=
  beside_domain.unread.bind fun _ => beside_heap.unread.bind fun _ => (unread_check _).bind fun _ =>
    (unread_setHeap _).bind fun _ => (plain_modifyDomain _).unread

theorem unread_loadStack (b : BlockId) : (loadStack b).Unread :=
  (beside_stack b).unread.bind fun _ => (plain_modifyDomain _).unread

theorem founding_unread : Founding @Unread where
  bind := Unread.bind
  beside ha := ha.unread
  syncStack := unread_syncStack
  markDirty := unread_markDirty
  loadStack := unread_loadStack
  allocate path _ := unread_allocate _ path

theorem unread_settle (old : BlockId) (owner : Option DomainId) (d : DomainId) (new : BlockId) (saved : List Word) :
    (settle old owner d new saved).Unread := by
  have hmove : (moveTo old new saved).Unread := (unread_loadStack new).bind fun _ =>
    (beside_stack old).unread.bind fun _ => (unread_setStack _ _).bind fun _ => (beside_pure _).unread
  unfold settle
  split
  · exact hmove
  · refine Unread.bind ?_ fun _ => (unread_markDirty _).bind fun _ => hmove
    unfold require
    split
    · exact (beside_pure _).unread
    · exact unread_check (.error _)

/-- The entries that an action adds come last. -/
theorem Unread.log {a : Act α} (ha : a.Unread) (s : Active) : ∃ new, (a s).2.world.log = s.world.log ++ new := by
  obtain ⟨r, t, new, -, ht⟩ := ha s
  have hrun : a s = (r, t.logging s.world.verbose (s.world.log ++ new)) := ht s.world.verbose s.world.log
  exact ⟨new, by rw [hrun]; rfl⟩

/-! ### Writing the log -/

/-- **An action that does the same whether entries of the level debug are written or not**, unless one of those it adds
is oversized: then it stops where they are. -/
def Audible (a : Act α) : Prop :=
  ∀ s : Active, ∃ (r : Except Stop α) (t : Active) (new : List Notice),
    (∀ log, a (s.logging false log) = (r, t.logging false (log ++ new))) ∧
    ((∀ n ∈ new, ¬ n.Oversized) → ∀ log, a (s.logging true log) = (r, t.logging true (log ++ new))) ∧
    ((∃ n ∈ new, n.Oversized) → ∀ log, ∃ u, a (s.logging true log) = (.error (.fault .productTooLarge), u))

theorem Unread.audible {a : Act α} (ha : a.Unread) : a.Audible := by
  intro s
  obtain ⟨r, t, new, hnew, ht⟩ := ha s
  refine ⟨r, t, new, ht false, fun _ => ht true, ?_⟩
  rintro ⟨n, hn, words, hwords, -⟩
  exact absurd ((hnew n hn).symm.trans hwords) nofun

/-- The first oversized entry is where the action stops, be it before or after. -/
theorem Audible.bind {a : Act β} {f : β → Act α} (ha : a.Audible) (hf : ∀ x, (f x).Audible) : (a >>= f).Audible := by
  intro s
  obtain ⟨r, t, new, hquiet, hsame, hstops⟩ := ha s
  have hstops' : (∃ n ∈ new, n.Oversized) → ∀ log, ∃ u,
      (a >>= f) (s.logging true log) = (.error (.fault .productTooLarge), u) := fun h log =>
    (hstops h log).imp fun _ hu => bind_of_error hu
  cases r with
  | error e =>
    exact ⟨.error e, t, new, fun log => bind_of_error (hquiet log), fun h log => bind_of_error (hsame h log), hstops'⟩
  | ok x =>
    obtain ⟨r, u, new', hquiet', hsame', hlater⟩ := hf x t
    refine ⟨r, u, new ++ new', fun log => ?_, fun h log => ?_, fun h log => ?_⟩
    · rw [bind_of_ok (hquiet log), hquiet', List.append_assoc]
    · rw [bind_of_ok (hsame (fun n hn => h n (List.mem_append_left _ hn)) log),
        hsame' (fun n hn => h n (List.mem_append_right _ hn)), List.append_assoc]
    · by_cases hfirst : ∃ n ∈ new, n.Oversized
      · exact hstops' hfirst log
      · obtain ⟨n, hn, hover⟩ := h
        have hn' : n ∈ new' := (List.mem_append.1 hn).resolve_left fun hn => hfirst ⟨n, hn, hover⟩
        rw [bind_of_ok (hsame (fun n hn hover => hfirst ⟨n, hn, hover⟩) log)]
        exact hlater ⟨n, hn', hover⟩ _

/-- **Handling stacks and making new ones** is the same with the log written. -/
theorem founding_audible : Founding @Audible := founding_unread.mono Unread.audible Audible.bind

theorem noteSize_eq (entry : Nat → Notice) (words : Nat) (s : Active) : noteSize entry words s =
    if s.world.verbose = true ∧ Size.bound ≤ words * wordBytes then (.error (.fault .productTooLarge), s)
    else (.ok (), { s with world := s.world.note (entry words) }) := by
  unfold noteSize
  rw [bind_of_ok (show Action.view (fun s : Active => s.world.verbose) s = (.ok s.world.verbose, s) from rfl)]
  cases s.world.verbose with
  | false => rfl
  | true =>
    change (check (Size.fit .productTooLarge (words * wordBytes)) >>= fun _ => note (entry words)) s = _
    by_cases hfits : words * wordBytes < Size.bound
    · rw [Size.fit_of_lt hfits, if_neg fun h => absurd h.2 (Nat.not_le_of_lt hfits)]
      rfl
    · rw [Size.fit_of_le (Nat.le_of_not_lt hfits), if_pos ⟨rfl, Nat.le_of_not_lt hfits⟩]
      rfl

/-- **An entry that shows a size** is where the difference is. -/
theorem audible_noteSize {entry : Nat → Notice} (hentry : ∀ n, (entry n).size? = some n) (words : Nat) :
    (noteSize entry words).Audible := by
  intro s
  have hover : (entry words).Oversized ↔ Size.bound ≤ words * wordBytes := by simp [Notice.Oversized, hentry]
  refine ⟨.ok (), s, [entry words], fun _ => rfl, fun h log => ?_, fun h log => ?_⟩
  · rw [noteSize_eq, if_neg fun hb => h _ List.mem_cons_self (hover.2 hb.2)]
    rfl
  · obtain ⟨n, hn, hn'⟩ := h
    obtain rfl := List.mem_singleton.1 hn
    rw [noteSize_eq, if_pos ⟨rfl, hover.1 hn'⟩]
    exact ⟨_, rfl⟩

/-- **Growing** is the same with the log written, but for a size that cannot be written. -/
theorem audible_tryGrow (required : Nat) (saved : List Word) : (tryGrow required saved).Audible := by
  have hP := founding_audible
  refine (hP.beside (beside_guardBlocking _)).bind fun _ => hP.saveStack.bind fun old =>
    (hP.beside (beside_stack old)).bind fun s => (hP.beside beside_domain).bind fun d =>
      (unread_check _).audible.bind fun needed => ?_
  split
  · exact hP.pure _
  · exact (unread_check (.error _)).audible
  · refine (audible_noteSize (fun _ => rfl) _).bind fun _ => Unread.audible ?_
    refine (unread_check _).bind fun _ => (unread_check _).bind fun _ => (unread_check _).bind fun _ =>
      (beside_enterFrame _).unread.bind fun _ => (unread_allocate _ _).bind fun allocated =>
        (beside_leaveFrame _).unread.bind fun saved => ?_
    split
    · exact (beside_pure _).unread
    · exact unread_settle old s.owner d.id _ saved

end Act

end FiberStacks
