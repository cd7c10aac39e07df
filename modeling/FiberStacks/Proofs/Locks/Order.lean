import FiberStacks.Proofs.Locks.Records
import FiberStacks.Proofs.Outcome

/-!
# Locks in order

The lock records of a domain are numbered in the order in which the locks were taken, and every platform lock they
name is held, beside those held by other domains.

* `InOrder` — the invariant, of a list of records, the number of records made so far, the platform locks of others
  and the platform locks held;
* `Locks.unlockAll_eq_ok` — locks that are held can be unlocked, one after another;
* `InOrder.append`, `InOrder.remove`, `InOrder.cut` — taking a lock, giving one back and unwinding keep it.
-/

namespace FiberStacks

def platformLocks (ls : List Lock) : List Lock := ls.filter fun l => l.kind = .platform

@[simp] theorem platformLocks_append (as bs : List Lock) :
    platformLocks (as ++ bs) = platformLocks as ++ platformLocks bs := List.filter_append ..

theorem platformLocks_cons_of_platform {l : Lock} (h : l.kind = .platform) (ls : List Lock) :
    platformLocks (l :: ls) = l :: platformLocks ls := by
  simp [platformLocks, h]

theorem platformLocks_cons_of_ne {l : Lock} (h : l.kind ≠ .platform) (ls : List Lock) :
    platformLocks (l :: ls) = platformLocks ls := by
  simp [platformLocks, h]

namespace Locks

/-- **Locks that are held can be unlocked**, one after another, and the others stay held. -/
theorem unlockAll_eq_ok : ∀ {xs rest : List Lock} {ls : Locks}, (platformLocks xs ++ rest).Subperm ls.held →
    ∃ ls', ls.unlockAll xs = .ok ls' ∧ rest.Subperm ls'.held ∧ ls'.journal = ls.journal ++ xs.map .unlocked := by
  intro xs
  induction xs with
  | nil => intro rest ls h; exact ⟨ls, rfl, h, by simp⟩
  | cons x xs ih =>
    intro rest ls h
    by_cases hx : x.kind = .platform
    · rw [platformLocks_cons_of_platform hx] at h
      have hmem : x ∈ ls.held := h.subset (by simp)
      have h' : (platformLocks xs ++ rest).Subperm (ls.held.erase x) := by simpa using h.erase x
      obtain ⟨ls', h1, h2, h3⟩ := @ih rest ⟨ls.held.erase x, ls.journal ++ [.unlocked x]⟩ h'
      refine ⟨ls', ?_, h2, by rw [h3]; simp⟩
      have hu : ls.unlock x = .ok ⟨ls.held.erase x, ls.journal ++ [.unlocked x]⟩ := by
        unfold unlock isHeld
        rw [if_pos hx, if_pos (by simpa using hmem)]
      rw [unlockAll, hu]
      exact h1
    · rw [platformLocks_cons_of_ne hx] at h
      obtain ⟨ls', h1, h2, h3⟩ := @ih rest { ls with journal := ls.journal ++ [.unlocked x] } h
      refine ⟨ls', ?_, h2, by rw [h3]; simp⟩
      have hu : ls.unlock x = .ok { ls with journal := ls.journal ++ [.unlocked x] } := by
        unfold unlock
        rw [if_neg hx]
      rw [unlockAll, hu]
      exact h1

theorem held_lock? {ls ls' : Locks} {l : Lock} (h : ls.lock? l = some ls') :
    ls'.held = platformLocks [l] ++ ls.held := by
  unfold lock? at h
  by_cases hl : l.kind = .platform
  · rw [if_pos hl] at h
    split at h
    · cases h
    · obtain rfl := Option.some.inj h
      rw [platformLocks_cons_of_platform hl]
      rfl
  · rw [if_neg hl] at h
    obtain rfl := Option.some.inj h
    rw [platformLocks_cons_of_ne hl]
    rfl

end Locks

/-- **Lock records in order**: numbered in the order of acquisition, none beyond the number of records made, and
each platform lock they name is held, once for each record, beside the locks of others. -/
structure InOrder (records : List LockRecord) (taken : Nat) (others held : List Lock) : Prop where
  increasing : records.Pairwise fun a b => a.id.number < b.id.number
  counted : ∀ r ∈ records, r.id.number ≤ taken
  held : (platformLocks (records.map LockRecord.lock) ++ others).Subperm held

namespace InOrder

variable {rs as bs : List LockRecord} {taken : Nat} {others : List Lock} {ls ls' : Locks}

theorem append {l : Lock} (h : InOrder rs taken others ls.held) (hl : ls.lock? l = some ls') :
    InOrder (rs ++ [⟨⟨taken + 1⟩, l⟩]) (taken + 1) others ls'.held where
  increasing := by
    refine List.pairwise_append.2 ⟨h.increasing, List.pairwise_singleton .., ?_⟩
    intro a ha b hb
    obtain rfl := List.mem_singleton.1 hb
    have := h.counted a ha
    simp only
    omega
  counted := by
    intro r hr
    rcases List.mem_append.1 hr with hr | hr
    · have := h.counted r hr
      omega
    · obtain rfl := List.mem_singleton.1 hr
      exact le_rfl
  held := by
    rw [Locks.held_lock? hl, List.map_append, platformLocks_append]
    refine List.Perm.subperm ?_ |>.trans ((List.subperm_append_left _).2 h.held)
    rw [← List.append_assoc]
    exact List.perm_append_comm.append_right _

/-- Some of the records alone. -/
theorem sublist (h : InOrder rs taken others ls.held) (hsub : as.Sublist rs) : InOrder as taken others ls.held where
  increasing := h.increasing.sublist hsub
  counted := fun r hr => h.counted r (hsub.subset hr)
  held := (((hsub.map _).filter _).append_right others).subperm.trans h.held

/-- Records that can be split into those kept and those released are in order after the release. -/
theorem release (h : InOrder rs taken others ls.held) (cs : List LockRecord) (hsub : as.Sublist rs)
    (hperm : (cs ++ as).Perm rs) :
    ∃ ls', ls.unlockAll (cs.map LockRecord.lock) = .ok ls' ∧ InOrder as taken others ls'.held ∧
      ls'.journal = ls.journal ++ cs.map fun r => .unlocked r.lock := by
  have hheld : (platformLocks (cs.map LockRecord.lock) ++
      (platformLocks (as.map LockRecord.lock) ++ others)).Subperm ls.held := by
    refine List.Perm.subperm ?_ |>.trans h.held
    rw [← List.append_assoc, ← platformLocks_append, ← List.map_append]
    exact ((hperm.map _).filter _).append_right _
  obtain ⟨ls', h1, h2, h3⟩ := Locks.unlockAll_eq_ok hheld
  refine ⟨ls', h1, ⟨h.increasing.sublist hsub, fun r hr => h.counted r (hsub.subset hr), h2⟩, ?_⟩
  rw [h3, List.map_map]
  rfl

theorem remove {r : LockRecord} (h : InOrder (as ++ r :: bs) taken others ls.held) :
    ∃ ls', ls.unlockAll [r.lock] = .ok ls' ∧ InOrder (as ++ bs) taken others ls'.held ∧
      ls'.journal = ls.journal ++ [.unlocked r.lock] :=
  have hperm : (as ++ r :: bs).Perm ([r] ++ (as ++ bs)) := List.perm_middle
  h.release [r] ((List.Sublist.refl as).append (List.sublist_cons_self r bs)) hperm.symm

/-- Releasing an end of the records, the newest first. -/
theorem cut {cs : List LockRecord} (h : InOrder rs taken others ls.held) (hrs : as ++ cs.reverse = rs) :
    ∃ ls', ls.unlockAll (cs.map LockRecord.lock) = .ok ls' ∧ InOrder as taken others ls'.held ∧
      ls'.journal = ls.journal ++ cs.map fun r => .unlocked r.lock := by
  subst hrs
  refine h.release cs (List.sublist_append_left as cs.reverse) ?_
  exact (List.perm_append_comm).trans (((List.reverse_perm cs).symm).append_left as)

theorem filter_le_append_filter_lt (h : InOrder rs taken others ls.held) (n : Nat) :
    (rs.filter fun r => r.id.number ≤ n) ++ (rs.filter fun r => n < r.id.number) = rs := by
  have key : ∀ rs : List LockRecord, rs.Pairwise (fun a b => a.id.number < b.id.number) →
      (rs.filter fun r => r.id.number ≤ n) ++ (rs.filter fun r => n < r.id.number) = rs := by
    intro rs
    induction rs with
    | nil => intro _; rfl
    | cons r rs ih =>
      intro hp
      obtain ⟨hr, hp⟩ := List.pairwise_cons.1 hp
      by_cases hn : r.id.number ≤ n
      · have hn' : ¬ n < r.id.number := by omega
        simp [hn, hn', ih hp]
      · -- `r` is beyond `n`, and so is everything after it
        have hn' : n < r.id.number := by omega
        have hle : rs.filter (fun r => r.id.number ≤ n) = [] := by
          refine List.filter_eq_nil_iff.2 fun a ha => ?_
          have := hr a ha
          simp only [decide_eq_true_eq]
          omega
        have hlt : rs.filter (fun r => n < r.id.number) = rs := by
          refine List.filter_eq_self.2 fun a ha => ?_
          have := hr a ha
          simp only [decide_eq_true_eq]
          omega
        simp [hn, hn', hle, hlt]
  exact key rs h.increasing

end InOrder

end FiberStacks
