import FiberStacks.Proofs.Locks.Domains
import Mathlib.Data.List.Nodup

/-!
# Platform locks are held

Whatever domains do with locks, frames and regions, and however that ends: a platform lock that some domain has a
record of is held, no two records are of one platform lock, and so no unlocking finds a lock that is not held.

* `Locks.InTurns` — every platform lock was locked and unlocked in turns;
* `Active.Holding` — the locks of the acting domain are held, beside those of others;
* `Act.Secure` — actions that keep this and unlock only what is held;
* `Body.secure_script` — **all bodies of protected regions** are among them;
* `Locking.Errand`, `Locking.run` — what domains do, in any order;
* `Locking.run_held` — **what holds of every state reached**.
-/

namespace FiberStacks

/-! ### Turns -/

def LockEvent.lock : LockEvent → Lock
  | locked l | unlocked l => l

/-- A lock that was locked and unlocked so often, and locked once more if it is held. -/
def turns (l : Lock) (n : Nat) (held : Bool) : List LockEvent :=
  (List.replicate n [LockEvent.locked l, .unlocked l]).flatten ++ if held then [.locked l] else []

theorem turns_false_append (l : Lock) (n : Nat) : turns l n false ++ [.locked l] = turns l n true := by
  simp [turns]

theorem turns_true_append (l : Lock) (n : Nat) : turns l n true ++ [.unlocked l] = turns l (n + 1) false := by
  simp [turns, List.replicate_succ']

namespace Locks

variable {ls ls' : Locks} {l : Lock} {e : LockEvent}

def history (ls : Locks) (l : Lock) : List LockEvent := ls.journal.filter fun e => e.lock = l

/-- **Every platform lock was locked and unlocked in turns**, and is held since it was locked last. -/
structure InTurns (ls : Locks) : Prop where
  nodup : ls.held.Nodup
  turns : ∀ l, l.kind = .platform → ∃ n, ls.history l = turns l n (ls.isHeld l)

theorem inTurns_empty : empty.InTurns := ⟨List.nodup_nil, fun _ _ => ⟨0, rfl⟩⟩

theorem history_append (hj : ls'.journal = ls.journal ++ [e]) (l : Lock) :
    ls'.history l = ls.history l ++ if e.lock = l then [e] else [] := by
  unfold history
  rw [hj, List.filter_append]
  by_cases h : e.lock = l <;> simp [h]

/-- Foreign locks count for nothing. -/
theorem InTurns.foreign (h : ls.InTurns) (he : e.lock.kind ≠ .platform) :
    InTurns { ls with journal := ls.journal ++ [e] } := by
  refine ⟨h.nodup, fun k hk => ?_⟩
  have hne : e.lock ≠ k := fun hek => he (hek ▸ hk)
  obtain ⟨n, hn⟩ := h.turns k hk
  refine ⟨n, ?_⟩
  rw [history_append rfl, if_neg hne, List.append_nil, hn]
  rfl

theorem InTurns.lock? (h : ls.InTurns) (hl : ls.lock? l = some ls') : ls'.InTurns := by
  unfold Locks.lock? at hl
  split at hl
  · next hp =>
    split at hl
    · cases hl
    · next hfree =>
      obtain rfl := Option.some.inj hl
      have hmem : l ∉ ls.held := by simpa [isHeld] using hfree
      refine ⟨List.nodup_cons.2 ⟨hmem, h.nodup⟩, fun k hk => ?_⟩
      obtain ⟨n, hn⟩ := h.turns k hk
      refine ⟨n, ?_⟩
      rw [history_append rfl, hn]
      by_cases hkl : k = l
      · subst hkl
        simpa [isHeld, hmem, LockEvent.lock] using turns_false_append k n
      · simp [isHeld, hkl, LockEvent.lock, Ne.symm hkl]
  · next hp =>
    obtain rfl := Option.some.inj hl
    exact h.foreign hp

theorem InTurns.unlock (h : ls.InTurns) (hl : ls.unlock l = .ok ls') : ls'.InTurns := by
  unfold Locks.unlock at hl
  split at hl
  · next hp =>
    split at hl
    · next hheld =>
      obtain rfl := Except.ok.inj hl
      refine ⟨h.nodup.erase l, fun k hk => ?_⟩
      obtain ⟨n, hn⟩ := h.turns k hk
      by_cases hkl : k = l
      · subst hkl
        refine ⟨n + 1, ?_⟩
        rw [history_append rfl, hn, hheld]
        have hgone : k ∉ ls.held.erase k := h.nodup.not_mem_erase
        simpa [isHeld, hgone, LockEvent.lock] using turns_true_append k n
      · refine ⟨n, ?_⟩
        rw [history_append rfl, hn]
        simp [isHeld, LockEvent.lock, Ne.symm hkl, List.mem_erase_of_ne hkl]
    · cases hl
  · next hp =>
    obtain rfl := Except.ok.inj hl
    exact h.foreign hp

theorem InTurns.unlockAll : ∀ {xs : List Lock} {ls ls' : Locks}, ls.InTurns → ls.unlockAll xs = .ok ls' → ls'.InTurns
  | [], _, _, h, hx => Except.ok.inj hx ▸ h
  | _ :: _, _, _, h, hx => by
    obtain ⟨ls₁, hu, hrest⟩ := bind_eq_ok_iff.1 hx
    exact (h.unlock hu).unlockAll hrest

end Locks

/-! ### Actions -/

/-- **The platform locks the acting domain has records of are held**, once for each record, beside those of other
domains. -/
structure Active.Holding (others : List Lock) (s : Active) : Prop where
  held : (platformLocks (s.domain.frames.records.map LockRecord.lock) ++ others).Subperm s.world.locks.held
  inTurns : s.world.locks.InTurns

/-- What an action leaves: the locks are held, and the domains are the same. -/
structure Active.Kept (others : List Lock) (s t : Active) : Prop where
  holding : t.Holding others
  id : t.domain.id = s.domain.id
  created : t.world.domainsCreated = s.world.domainsCreated

theorem Active.Holding.kept {others : List Lock} {s : Active} (hs : s.Holding others) : s.Kept others s :=
  ⟨hs, rfl, rfl⟩

theorem Active.Kept.trans {others : List Lock} {s t u : Active} (h : s.Kept others t) (h' : t.Kept others u) :
    s.Kept others u :=
  ⟨h'.holding, h'.id.trans h.id, h'.created.trans h.created⟩

namespace Act

open FiberStacks.Action

variable {α β : Type} {others : List Lock} {s t : Active}

/-- **However the action ends**, the locks are held, and it has unlocked none that was not. -/
def Secure (a : Act α) : Prop := ∀ others s, s.Holding others →
  a.wp s (fun _ t => s.Kept others t) fun e t => s.Kept others t ∧ ∀ l, e ≠ .fault (.notHeld l)

theorem Secure.bind {a : Act β} {f : β → Act α} (ha : Secure a) (hf : ∀ x, Secure (f x)) : Secure (a >>= f) := by
  intro others s hs
  refine wp_bind_of (ha others s hs) (fun x t ht => ?_) fun _ _ h => h
  exact wp_mono (hf x others t ht.holding) (fun _ _ hu => ht.trans hu) fun _ _ hu => ⟨ht.trans hu.1, hu.2⟩

theorem secure_pure (a : α) : Secure (pure a : Act α) := fun _ _ hs => hs.kept

theorem secure_stop {e : Stop} (he : ∀ l, e ≠ .fault (.notHeld l)) : Secure (Action.stop e : Act α) :=
  fun _ _ hs => ⟨hs.kept, he⟩

theorem secure_domain : Secure domain := fun _ _ hs => hs.kept

theorem secure_require (p : Prop) [Decidable p] {f : Fault} (hf : ∀ l, f ≠ .notHeld l) : Secure (require p f) := by
  intro others s hs
  rw [wp_require]
  exact ⟨fun _ => hs.kept, fun _ => ⟨hs.kept, fun l he => hf l (Stop.fault.inj he)⟩⟩

/-- **The frames may lose records**: the locks of those left are held. -/
theorem secure_modifyDomain {f : Domain → Domain} (hid : ∀ d, (f d).id = d.id)
    (hrecords : ∀ d, (f d).frames.records.Sublist d.frames.records) : Secure (modifyDomain f) := by
  intro others s hs
  rw [wp_modifyDomain]
  refine ⟨⟨List.Subperm.trans ?_ hs.held, hs.inTurns⟩, hid _, rfl⟩
  exact (((hrecords s.domain).map _).filter _ |>.append_right others).subperm

/-! ### Taking locks and giving them back -/

theorem secure_acquire (l : Lock) : Secure (acquire l) := by
  intro others s hs
  rw [wp_acquire]
  cases hl : s.world.locks.lock? l with
  | none => exact hs.kept
  | some locks =>
    refine ⟨⟨?_, hs.inTurns.lock? hl⟩, rfl, rfl⟩
    rw [LocalFrames.records_addLock, Locks.held_lock? hl, List.map_append, platformLocks_append]
    refine List.Perm.subperm ?_ |>.trans ((List.subperm_append_left _).2 hs.held)
    rw [← List.append_assoc]
    exact List.perm_append_comm.append_right _

/-- **Unlocking what the frames have no record of any more.** -/
theorem wp_unlockAll_released {rs : List LockRecord} {x : Domain} (hs : s.Holding others) (hid : x.id = s.domain.id)
    (hperm : (rs ++ x.frames.records).Perm s.domain.frames.records) {E : Stop → Active → Prop} :
    (unlockAll (rs.map LockRecord.lock)).wp ⟨x, s.world⟩ (fun _ u => s.Kept others u) E := by
  have hheld : (platformLocks (rs.map LockRecord.lock) ++
      (platformLocks (x.frames.records.map LockRecord.lock) ++ others)).Subperm s.world.locks.held := by
    refine List.Perm.subperm ?_ |>.trans hs.held
    rw [← List.append_assoc, ← platformLocks_append, ← List.map_append]
    exact ((hperm.map _).filter _).append_right _
  obtain ⟨locks, hu, hleft, -⟩ := Locks.unlockAll_eq_ok hheld
  exact wp_unlockAll locks hu ⟨⟨hleft, hs.inTurns.unlockAll hu⟩, hid, rfl⟩

theorem secure_release (id : LockId) : Secure (release id) := by
  intro others s hs
  unfold release
  simp only [wp_bind, wp_domain]
  cases hr : s.domain.frames.remove? id with
  | none => exact hs.kept
  | some p =>
    obtain ⟨r, frames⟩ := p
    obtain ⟨as, bs, h1, h2, -⟩ := LocalFrames.records_remove? hr
    simp only [wp_bind, wp_modifyDomain, wp_pure]
    have hperm : ([r] ++ frames.records).Perm s.domain.frames.records := by
      rw [h1, h2, List.singleton_append]
      exact List.perm_middle.symm
    exact @wp_unlockAll_released _ _ [r] { s.domain with frames } hs rfl hperm _

theorem secure_raise (w : Word) : Secure (raise w : Act α) := by
  intro others s hs
  unfold raise unwindTo
  simp only [wp_bind, wp_modifyDomain, wp_domain]
  split
  · simp only [wp_bind, wp_heap, wp_die]
    exact ⟨⟨⟨hs.held, hs.inTurns⟩, rfl, rfl⟩, by simp⟩
  · next c _ _ =>
    have hcut := LocalFrames.records_unwind s.domain.frames c.frames c.records
    simp only [wp_bind, wp_domain, wp_modifyDomain, wp_stop]
    refine wp_mono (wp_unlockAll_released (E := fun _ _ => False) hs ?_ ?_) (fun _ _ h => ⟨h, by simp⟩)
      fun _ _ h => h.elim
    · rfl
    · exact (List.perm_append_comm.trans ((List.reverse_perm _).symm.append_left _)).trans (.of_eq hcut)

/-! ### Frames, blocking sections and regions -/

theorem secure_enterFrame (roots : List Word) : Secure (enterFrame roots) := by
  refine secure_domain.bind fun _ => Secure.bind (secure_modifyDomain (fun _ => rfl) fun d => ?_) fun _ => secure_pure _
  rw [LocalFrames.records_push]

theorem secure_leaveFrame (marker : Nat) : Secure (leaveFrame marker) := by
  intro others s hs
  have popped : ∀ x frames, s.domain.frames.pop? = some (x, frames) →
      s.Kept others { s with domain := { s.domain with frames } } := by
    intro x frames hp
    refine ⟨⟨List.Subperm.trans ?_ hs.held, hs.inTurns⟩, rfl, rfl⟩
    rw [LocalFrames.records_pop? hp]
    exact (((List.sublist_append_left ..).map _).filter _ |>.append_right others).subperm
  exact wp_leaveFrame (fun x frames hp _ => popped x frames hp) ⟨hs.kept, by simp⟩
    fun x frames hp => ⟨popped x frames hp, by simp⟩

theorem secure_enterBlocking : Secure enterBlocking :=
  secure_modifyDomain (fun _ => rfl) fun _ => List.Sublist.refl _

theorem secure_leaveBlocking : Secure leaveBlocking :=
  secure_domain.bind fun _ => (secure_require _ (by simp)).bind fun _ =>
    secure_modifyDomain (fun _ => rfl) fun _ => List.Sublist.refl _

theorem secure_enterRegion : Secure enterRegion :=
  secure_domain.bind fun _ =>
    Secure.bind (secure_modifyDomain (fun _ => rfl) fun _ => List.Sublist.refl _) fun _ => secure_pure _

theorem secure_leaveRegion (depth : Nat) : Secure (leaveRegion depth) :=
  secure_domain.bind fun _ => (secure_require _ (by simp)).bind fun _ =>
    secure_modifyDomain (fun _ => rfl) fun _ => List.Sublist.refl _

theorem secure_takePending : Secure takePending := by
  refine secure_domain.bind fun d => ?_
  split
  · exact secure_stop (by simp)
  · exact Secure.bind (secure_modifyDomain (fun _ => rfl) fun _ => List.Sublist.refl _) fun _ => secure_pure _

theorem terminate_locks (s : Active) :
    (terminate s).2.world.locks = s.world.locks ∧ (terminate s).2.world.domainsCreated = s.world.domainsCreated ∧
      (terminate s).2.world.locksTaken = s.world.locksTaken := by
  have hclean : ∀ (w : World) (d : DomainId), (w.cleanAll d).2.locks = w.locks ∧
      (w.cleanAll d).2.domainsCreated = w.domainsCreated ∧ (w.cleanAll d).2.locksTaken = w.locksTaken := by
    intro w d
    unfold World.cleanAll
    dsimp only
    split <;> exact ⟨rfl, rfl, rfl⟩
  exact hclean s.world s.domain.id

theorem secure_terminate : Secure terminate := by
  intro others s hs
  obtain ⟨hlocks, hcreated, -⟩ := terminate_locks s
  exact ⟨⟨hlocks ▸ hs.held, hlocks ▸ hs.inTurns⟩, rfl, hcreated⟩

theorem secure_protect {body : Act α} (hb : Secure body) : Secure (protect body) := by
  refine secure_enterRegion.bind fun depth => ?_
  intro others s hs
  rw [wp_bind, wp_attempt]
  -- the region is left in whatever way the body ended
  have next : ∀ {a : Act (Except Word α)} {t : Active}, Secure a → s.Kept others t →
      a.wp t (fun _ u => s.Kept others u) fun e u => s.Kept others u ∧ ∀ l, e ≠ .fault (.notHeld l) :=
    fun ha ht => wp_mono (ha _ _ ht.holding) (fun _ _ hu => ht.trans hu) fun _ _ hu => ⟨ht.trans hu.1, hu.2⟩
  refine wp_mono (hb others s hs) (fun a t ht => ?_) fun e t ht => ?_
  · exact next ((secure_leaveRegion depth).bind fun _ => secure_pure _) ht
  · cases e with
    | raised =>
      exact next ((secure_leaveRegion depth).bind fun _ => secure_takePending.bind fun _ => secure_pure _) ht.1
    | fault f => exact next (secure_stop ht.2) ht.1
    | fatal x => exact next (secure_stop ht.2) ht.1

end Act

/-! ### Bodies -/

namespace Body

open FiberStacks.Act

theorem secure_conclude (r : Except Word Word) : Secure (conclude r) := by
  cases r with
  | ok v => exact secure_pure v
  | error w => exact secure_raise w

theorem secure_work (f : Active → Active) : Secure (Action.modify (Active.work f)) :=
  fun _ _ hs => ⟨⟨hs.held, hs.inTurns⟩, rfl, rfl⟩

/-- **A body is made of secure actions.** -/
theorem secure_script (b : Body) : Secure b.script := by
  induction b with
  | finish r => exact secure_pure r
  | acquire l _ ih => exact (secure_acquire l).bind ih
  | release id _ ih => exact (secure_release id).bind ih
  | enterFrame roots _ ih => exact (secure_enterFrame roots).bind ih
  | leaveFrame marker _ ih => exact (secure_leaveFrame marker).bind ih
  | enterBlocking _ ih => exact secure_enterBlocking.bind fun _ => ih
  | leaveBlocking _ ih => exact secure_leaveBlocking.bind fun _ => ih
  | protect _ _ ihi ihf => exact (secure_protect (ihi.bind secure_conclude)).bind ihf
  | work f _ ih => exact (secure_work f).bind fun _ => Secure.bind (fun _ _ hs => hs.kept) ih

end Body

/-! ### All domains -/

namespace Locking

open FiberStacks.Machine

/-- **What a domain does with locks, frames and regions**, up to the next point where another domain may act. -/
inductive Errand where
  /-- A body, with the exception it may end with. -/
  | body (b : Body)
  | enterRegion
  | leaveRegion (depth : Nat)
  | takePending

/-- What is done; the result is not looked at. -/
def Errand.act : Errand → Act Unit
  | body b => do let _ ← b.act
  | enterRegion => do let _ ← Act.enterRegion
  | leaveRegion depth => Act.leaveRegion depth
  | takePending => do let _ ← Act.takePending

/-- **What can happen**: domains are created, do something and end. -/
inductive Move where
  | create
  | ask (d : DomainId) (e : Errand)
  | terminate (d : DomainId)

/-- One move, with whatever it comes to; nothing happens to a domain that is not there. -/
def step (m : Machine) : Move → Machine
  | .create => m.create.2
  | .ask d e => ((m.act d e.act).map Prod.snd).getD m
  | .terminate d => ((m.terminate d).map Prod.snd).getD m

def run (m : Machine) (es : List Move) : Machine := es.foldl step m

theorem Errand.secure (e : Errand) : Act.Secure e.act := by
  have unit : ∀ {α : Type} {a : Act α}, Act.Secure a → Act.Secure (do let _ ← a : Act Unit) := fun ha =>
    ha.bind fun _ => Act.secure_pure _
  cases e with
  | body b => exact unit (b.secure_script.bind Body.secure_conclude)
  | enterRegion => exact unit Act.secure_enterRegion
  | leaveRegion depth => exact Act.secure_leaveRegion depth
  | takePending => exact unit Act.secure_takePending

/-- **The platform locks that domains have records of are held**, once for each record. -/
structure Holding (m : Machine) : Prop where
  numbered : m.Numbered
  held : (recorded m.domains).Subperm m.world.locks.held
  inTurns : m.world.locks.InTurns

namespace Holding

variable {m m' : Machine} {d : DomainId}

theorem initial {w : World} (hw : w.locks = .empty) : Holding (Machine.initial w) :=
  ⟨⟨.nil, by simp [Machine.initial]⟩, List.nil_subperm, hw ▸ Locks.inTurns_empty⟩

theorem create (h : Holding m) : Holding m.create.2 := by
  refine ⟨h.numbered.create, ?_, h.inTurns⟩
  change (recorded (m.domains ++ [_])).Subperm m.world.locks.held
  rw [recorded_append]
  exact (List.append_nil _).symm ▸ h.held

/-- **A domain acts**: the locks stay held, and it unlocks only what is held. -/
theorem act {α : Type} {a : Act α} {r : Except Stop α} (h : Holding m) (ha : Act.Secure a)
    (hr : m.act d a = some (r, m')) : Holding m' ∧ ∀ l, r ≠ .error (.fault (.notHeld l)) := by
  obtain ⟨x, hx, hr⟩ := Option.map_eq_some_iff.1 hr
  obtain ⟨as, bs, hm⟩ := domain?_eq_some hx
  obtain ⟨hout, rfl⟩ := Prod.mk.inj hr
  have hs : Active.Holding (recorded (as ++ bs)) ⟨x, m.world⟩ := by
    refine ⟨(recorded_perm as bs x).subperm.trans ?_, h.inTurns⟩
    rw [← hm]
    exact h.held
  have kept : ∀ {t : Active}, Active.Kept (recorded (as ++ bs)) ⟨x, m.world⟩ t →
      Holding { m.setDomain t.domain with world := t.world } := by
    intro t ht
    refine ⟨h.numbered.acted hm ht.id ht.created, ?_, ht.holding.inTurns⟩
    have hd : (m.setDomain t.domain).domains = as ++ t.domain :: bs :=
      domains_setDomain hm h.numbered.distinct ht.id
    simp only [hd]
    exact (recorded_perm as bs t.domain).symm.subperm.trans ht.holding.held
  have hend := ha _ _ hs
  unfold Action.wp at hend
  rcases hrun : a ⟨x, m.world⟩ with ⟨e | y, t⟩ <;> rw [hrun] at hout hend <;> subst hout
  · exact ⟨kept hend.1, fun l he => hend.2 l (Except.error.inj he)⟩
  · exact ⟨kept hend, by simp⟩

theorem step (h : Holding m) (e : Move) : Holding (step m e) := by
  cases e with
  | create => exact h.create
  | ask d e =>
    change Holding (((m.act d e.act).map Prod.snd).getD m)
    cases hr : m.act d e.act with
    | none => exact h
    | some r => exact (h.act e.secure hr).1
  | terminate d =>
    change Holding (((m.terminate d).map Prod.snd).getD m)
    unfold Machine.terminate
    cases hr : m.act d Act.terminate with
    | none => exact h
    | some r =>
      have hend := (h.act Act.secure_terminate hr).1
      -- the records of the domain that has ended go with it
      exact ⟨⟨hend.numbered.distinct.filter _, fun y hy => hend.numbered.created y (List.mem_of_mem_filter hy)⟩,
        (recorded_filter_subperm _ _).trans hend.held, hend.inTurns⟩

theorem run (h : Holding m) (es : List Move) : Holding (run m es) := by
  induction es generalizing m with
  | nil => exact h
  | cons e es ih => exact ih (h.step e)

/-- A lock that some domain has a record of. -/
theorem isHeld (h : Holding m) {x : Domain} (hx : x ∈ m.domains) {r : LockRecord} (hr : r ∈ x.frames.records)
    (hl : r.lock.kind = .platform) : m.world.locks.isHeld r.lock = true := by
  have hmem : r.lock ∈ recorded m.domains :=
    List.mem_filter.2 ⟨List.mem_map_of_mem (List.mem_flatMap_of_mem hx hr), by simpa using hl⟩
  simpa [Locks.isHeld] using h.held.subset hmem

/-- **No two records are of one platform lock.** -/
theorem countP_le_one (h : Holding m) {l : Lock} (hl : l.kind = .platform) :
    (m.domains.flatMap fun x => x.frames.records).countP (fun r => r.lock = l) ≤ 1 := by
  have hcount := (h.held.count_le l).trans (List.nodup_iff_count_le_one.1 h.inTurns.nodup l)
  refine le_trans (le_of_eq ?_) hcount
  rw [recorded, platformLocks, List.count_filter (by simpa using hl), List.count, List.countP_map]
  rfl

end Holding

/-- **Platform locks are unlocked only when held.**  Whatever domains do with locks, frames and regions, in any order:
every platform lock that some domain has a record of is held, no two records of all domains are of one platform lock,
no domain can do anything next that unlocks a lock that is not held, and every platform lock was locked and unlocked in
turns, so that it was never unlocked twice for being locked once. -/
theorem run_held (config : Config) (layout : Layout) (heap : Heap) (es : List Move) :
    (∀ x ∈ (run (.initial (.initial config layout heap)) es).domains, ∀ r ∈ x.frames.records,
      r.lock.kind = .platform → (run (.initial (.initial config layout heap)) es).world.locks.isHeld r.lock = true) ∧
    (∀ l : Lock, l.kind = .platform →
      ((run (.initial (.initial config layout heap)) es).domains.flatMap fun x => x.frames.records).countP
        (fun r => r.lock = l) ≤ 1) ∧
    (∀ d (e : Errand) r m', (run (.initial (.initial config layout heap)) es).act d e.act = some (r, m') →
      ∀ l, r ≠ .error (.fault (.notHeld l))) ∧
    ∀ l : Lock, l.kind = .platform → ∃ n, (run (.initial (.initial config layout heap)) es).world.locks.history l =
      turns l n ((run (.initial (.initial config layout heap)) es).world.locks.isHeld l) := by
  have h : Holding (run (.initial (.initial config layout heap)) es) := (Holding.initial rfl).run es
  exact ⟨fun x hx r hr => h.isHeld hx hr, fun l hl => h.countP_le_one hl,
    fun d e r m' hr => (h.act e.secure hr).2, h.inTurns.turns⟩

end Locking

end FiberStacks
