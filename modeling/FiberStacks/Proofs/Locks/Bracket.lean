import FiberStacks.Proofs.Locks.Above
import FiberStacks.Proofs.Locks.Body

/-!
# Bracketed bodies

A body is bracketed when each region in it leaves only frames entered inside that region, and nothing gives back a
lock recorded before the body began.  Such a body works on top of the frames that stood when it began.

* `Body.Bracketed` — along the run of a body from a state;
* `Inside` — what holds at every point of the run: frames on top of frames, and regions entered above them;
* `script_inside` — the induction over bodies;
* `protect_restores` — **a region with a bracketed body gives everything back when it raises**.
-/

namespace FiberStacks

namespace Body

open FiberStacks.Action

/-- The innermost frame was entered inside the innermost region. -/
def OwnsFrame (s : Active) : Prop := ∀ c ∈ s.domain.handlers.head?, c.frames < s.domain.frames.depth

/-- **Bracketed bodies**, along their run from a state: every region leaves only frames entered inside it, and no
record of `outside` is given back.  Locks may stay taken and frames may stay open at the end, and nested regions may
do with an exception what they like. -/
def Bracketed (outside : List LockRecord) : Body → Active → Prop
  | finish _, _ => True
  | acquire l next, s => (Act.acquire l).wp s (fun id t => (next id).Bracketed outside t) fun _ _ => True
  | release id next, s => (∀ r ∈ outside, r.id ≠ id) ∧
      (Act.release id).wp s (fun b t => (next b).Bracketed outside t) fun _ _ => True
  | enterFrame roots next, s =>
    (Act.enterFrame roots).wp s (fun marker t => (next marker).Bracketed outside t) fun _ _ => True
  | leaveFrame marker next, s => OwnsFrame s ∧
      (Act.leaveFrame marker).wp s (fun roots t => (next roots).Bracketed outside t) fun _ _ => True
  | enterBlocking next, s => Act.enterBlocking.wp s (fun _ t => next.Bracketed outside t) fun _ _ => True
  | leaveBlocking next, s => Act.leaveBlocking.wp s (fun _ t => next.Bracketed outside t) fun _ _ => True
  | protect inner next, s => inner.Bracketed outside s.entered ∧
      (Act.protect inner.act).wp s (fun r t => (next r).Bracketed outside t) fun _ _ => True
  | work f next, s => (next (s.work f)).Bracketed outside (s.work f)

/-! ### Inside a region -/

/-- **The run is inside a region** entered with the frames `f₀` and after `n` records: the frames are those and more
on top, with newer records, and the innermost region was entered no earlier. -/
structure Inside (f₀ : LocalFrames) (n : Nat) (s : Active) : Prop where
  above : f₀.Above (fun r => n < r.id.number) s.domain.frames
  counted : n ≤ s.world.locksTaken
  region : ∃ c ∈ s.domain.handlers.head?, f₀.depth ≤ c.frames ∧ c.frames ≤ s.domain.frames.depth ∧
    (c.frames = f₀.depth → f₀.innermost.ledger.size ≤ c.records)

section Steps

variable {f₀ : LocalFrames} {n : Nat} {s t : Active} {others : List Lock}

/-- A region entered inside is inside. -/
theorem Inside.entered (h : Inside f₀ n s) : Inside f₀ n s.entered where
  above := h.above
  counted := h.counted
  region := ⟨s.context, rfl, h.above.depth_le, le_rfl, h.above.size_le⟩

theorem inside_entered (s : Active) : Inside s.domain.frames s.world.locksTaken s.entered where
  above := LocalFrames.above_self s.domain.frames
  counted := le_rfl
  region := ⟨s.context, rfl, le_rfl, le_rfl, fun _ => le_rfl⟩

theorem Inside.depth_le {c : HandlerContext} {hs : List HandlerContext} (h : Inside f₀ n s)
    (hc : s.domain.handlers = c :: hs) : c.frames ≤ s.domain.frames.depth := by
  obtain ⟨c', hc', -, h', -⟩ := h.region
  rw [hc] at hc'
  obtain rfl := Option.some.inj hc'
  exact h'

theorem Inside.of_frames (h : Inside f₀ n s) (habove : f₀.Above (fun r => n < r.id.number) t.domain.frames)
    (hcount : n ≤ t.world.locksTaken) (hh : t.domain.handlers = s.domain.handlers)
    (hd : ∀ c ∈ s.domain.handlers.head?, c.frames ≤ s.domain.frames.depth → c.frames ≤ t.domain.frames.depth) :
    Inside f₀ n t where
  above := habove
  counted := hcount
  region := by
    obtain ⟨c, hc, h1, h2, h3⟩ := h.region
    exact ⟨c, hh ▸ hc, h1, hd c hc h2, h3⟩

/-! ### The operations -/

theorem acquire_inside (h : Inside f₀ n s) (l : Lock) :
    (Act.acquire l).wp s (fun _ t => Inside f₀ n t) fun _ _ => True := by
  rw [Act.wp_acquire]
  cases s.world.locks.lock? l with
  | none => exact h
  | some locks =>
    refine h.of_frames (LocalFrames.above_addLock h.above (Nat.lt_succ_of_le h.counted))
      (Nat.le_succ_of_le h.counted) rfl ?_
    intro c _ hc
    simp only [LocalFrames.addLock, LocalFrames.depth_setInnermost]
    exact hc

theorem release_inside (h : Inside f₀ n s) (hs : s.LocksInOrder others) {id : LockId}
    (hid : ∀ r ∈ f₀.records, r.id ≠ id) : (Act.release id).wp s (fun _ t => Inside f₀ n t) fun _ _ => True := by
  refine Act.wp_release hs (fun _ => h) fun r frames locks hr _ => ?_
  refine h.of_frames (LocalFrames.above_remove? h.above hid hr) h.counted rfl ?_
  intro c _ hc
  rw [LocalFrames.depth_remove? hr]
  exact hc

theorem enterFrame_inside (h : Inside f₀ n s) (roots : List Word) :
    (Act.enterFrame roots).wp s (fun _ t => Inside f₀ n t) fun _ _ => True := by
  rw [Act.wp_enterFrame]
  exact h.of_frames (LocalFrames.above_push h.above) h.counted rfl fun c _ hc => Nat.le_succ_of_le hc

theorem leaveFrame_inside (h : Inside f₀ n s) (hown : OwnsFrame s) (marker : Nat) :
    (Act.leaveFrame marker).wp s (fun _ t => Inside f₀ n t) fun _ _ => True := by
  refine Act.wp_leaveFrame (fun x frames hp _ => ?_) trivial fun _ _ _ => trivial
  obtain ⟨c, hc, h1, -, -⟩ := h.region
  have hlt := hown c hc
  refine h.of_frames (LocalFrames.above_pop? h.above (h1.trans_lt hlt) hp) h.counted rfl ?_
  intro c' hc' _
  have hd := LocalFrames.depth_pop? hp
  obtain rfl := Option.some.inj (hc.symm.trans hc')
  simp only
  omega

theorem enterBlocking_inside (h : Inside f₀ n s) : Act.enterBlocking.wp s (fun _ t => Inside f₀ n t) fun _ _ => True :=
  Act.wp_enterBlocking.2 ⟨h.above, h.counted, h.region⟩

theorem leaveBlocking_inside (h : Inside f₀ n s) : Act.leaveBlocking.wp s (fun _ t => Inside f₀ n t) fun _ _ => True :=
  Act.wp_leaveBlocking ⟨h.above, h.counted, h.region⟩ trivial

theorem protect_inside {b : Body} (h : Inside f₀ n s) (hs : s.LocksInOrder others)
    (hb : b.script.wp s.entered (fun _ t => Inside f₀ n t) fun _ _ => True) :
    (Act.protect b.act).wp s (fun _ t => Inside f₀ n t) fun _ _ => True := by
  have hb' := wp_and hb (script_keeps b hs.entered)
  unfold wp at hb'
  rcases hr : b.script s.entered with ⟨e | w | v, t⟩ <;> simp only [hr] at hb'
  · rw [wp_of_error (protect_act_of_error hr hb'.2.ne_raised)]
    trivial
  all_goals
    obtain ⟨hin, hk⟩ := hb'
    have hh := hk.handlers
    have hd : s.domain.frames.depth ≤ t.domain.frames.depth := hin.depth_le (hh.trans (handlers_entered s))
  · obtain ⟨locks, hp, -, -⟩ := protect_act_of_raise hr hk.order hh
    rw [wp_of_ok hp]
    -- the unwinding stops at the frame that was innermost when the nested region was entered
    have habove := LocalFrames.above_unwind hin.above h.above.depth_le hd h.above.size_le
    refine h.of_frames habove hin.counted ?_ ?_
    · change t.domain.handlers.tail = _
      rw [hh]
      rfl
    · intro c _ hc
      exact hc.trans_eq (LocalFrames.depth_unwind s.domain.frames.one_le_depth hd).symm
  · rw [wp_of_ok (protect_act_of_ok hr hh)]
    exact h.of_frames hin.above hin.counted rfl fun c _ hc => hc.trans hd

end Steps

/-! ### Bodies -/

variable {f₀ : LocalFrames} {n : Nat} {others : List Lock}

/-- **A bracketed body stays inside its region.** -/
theorem script_inside (b : Body) : ∀ {s : Active}, s.LocksInOrder others → Inside f₀ n s → b.Bracketed f₀.records s →
    b.script.wp s (fun _ t => Inside f₀ n t) fun _ _ => True := by
  -- after an operation that keeps the order and stays inside, the rest of the body does
  have next : ∀ {α : Type} {a : Act α} {s : Active} {f : α → Body},
      a.wp s (fun _ t => Keeps others s t) (fun e _ => e.Misuse) →
      a.wp s (fun _ t => Inside f₀ n t) (fun _ _ => True) →
      a.wp s (fun x t => (f x).Bracketed f₀.records t) (fun _ _ => True) →
      (∀ x {t}, t.LocksInOrder others → Inside f₀ n t → (f x).Bracketed f₀.records t →
        (f x).script.wp t (fun _ u => Inside f₀ n u) fun _ _ => True) →
      (a >>= fun x => (f x).script).wp s (fun _ u => Inside f₀ n u) fun _ _ => True := by
    intro α a s f hk hin hb hf
    rw [wp_bind]
    exact wp_mono (wp_and hk (wp_and hin hb)) (fun x t h => hf x h.1.order h.2.1 h.2.2) fun _ _ _ => trivial
  induction b with
  | finish r => intro s _ h _; exact h
  | acquire l f ih => intro s hs h hb; exact next (acquire_keeps hs l) (acquire_inside h l) hb ih
  | release id f ih => intro s hs h hb; exact next (release_keeps hs id) (release_inside h hs hb.1) hb.2 ih
  | enterFrame roots f ih => intro s hs h hb; exact next (enterFrame_keeps hs roots) (enterFrame_inside h roots) hb ih
  | leaveFrame marker f ih =>
    intro s hs h hb
    exact next (leaveFrame_keeps hs marker) (leaveFrame_inside h hb.1 marker) hb.2 ih
  | enterBlocking f ih =>
    intro s hs h hb
    exact next (f := fun _ => f) (enterBlocking_keeps hs) (enterBlocking_inside h) hb fun _ => ih
  | leaveBlocking f ih =>
    intro s hs h hb
    exact next (f := fun _ => f) (leaveBlocking_keeps hs) (leaveBlocking_inside h) hb fun _ => ih
  | protect inner f ihi ihf =>
    intro s hs h hb
    have hin := ihi hs.entered h.entered hb.1
    exact next (protect_keeps (script_keeps inner hs.entered)) (protect_inside h hs hin) hb.2 ihf
  | work f g ih =>
    intro s hs h hb
    rw [script, wp_bind, wp_modify, wp_bind, wp_state]
    exact ih _ (s := s.work f) hs ⟨h.above, h.counted, h.region⟩ hb

theorem takenSince_eq {s t : Active} {added : List LockRecord} (hs : s.LocksInOrder others)
    (ht : t.domain.frames.records = s.domain.frames.records ++ added)
    (hadded : ∀ r ∈ added, s.world.locksTaken < r.id.number) : t.takenSince s.world.locksTaken = added := by
  have hold : s.domain.frames.records.filter (fun r => s.world.locksTaken < r.id.number) = [] := by
    refine List.filter_eq_nil_iff.2 fun r hr => ?_
    simpa using hs.counted r hr
  unfold Active.takenSince
  rw [ht, List.filter_append, hold, List.nil_append]
  exact List.filter_eq_self.2 fun r hr => by simpa using hadded r hr

/-- **A region with a bracketed body.**  If the body raises, the exception is returned, the frames with their roots and
ledgers, the blocking depth and the regions are those at entry, none is pending, and the locks held at the raise and
taken since are unlocked, newest first.  If it returns, the regions are those at entry, and so are the frames, but for
the locks taken since and still held: those taken in the frame innermost at entry stand at the end of its ledger.  If
it goes wrong, that is by a misuse of frames or blocking sections of its own. -/
theorem protect_restores (b : Body) {s : Active} (hs : s.LocksInOrder others)
    (hb : b.Bracketed s.domain.frames.records s.entered) :
    match b.script s.entered with
    | (.ok (.error w), t) => ∃ s', Act.protect b.act s = (.ok (.error w), s') ∧
        s'.domain.frames = s.domain.frames ∧ s'.domain.blocking = s.domain.blocking ∧
        s'.domain.handlers = s.domain.handlers ∧ s'.domain.pending = none ∧
        s'.world.locks.journal =
          t.world.locks.journal ++ (t.takenSince s.world.locksTaken).reverse.map fun r => .unlocked r.lock
    | (.ok (.ok v), _) => ∃ s' kept rest, Act.protect b.act s = (.ok (.ok v), s') ∧
        s'.domain.handlers = s.domain.handlers ∧ s.domain.frames.Over s'.domain.frames kept rest ∧
        kept ++ (rest.flatMap fun x => x.ledger.records) = s'.takenSince s.world.locksTaken
    | (.error e, t) => Act.protect b.act s = (.error e, t) ∧ e.Misuse ∧
        e ≠ .fault .nothingPending ∧ e ≠ .fault .unbalanced := by
  have h := wp_and (script_keeps b hs.entered) (script_inside b hs.entered (inside_entered s) hb)
  unfold wp at h
  rcases hr : b.script s.entered with ⟨e | w | v, t⟩ <;> simp only [hr] at h ⊢
  · refine ⟨protect_act_of_error hr h.1.ne_raised, h.1, ?_, ?_⟩ <;> (intro he; rw [he] at h; cases h.1)
  · obtain ⟨hk, hin⟩ := h
    obtain ⟨locks, hp, -, hj⟩ := protect_act_of_raise hr hk.order hk.handlers
    have hframes : (t.domain.frames.unwind s.context.frames s.context.records).2 = s.domain.frames :=
      hin.above.unwind_eq
    obtain ⟨added, hadded, hnew⟩ := hin.above.records
    have hcut : (t.cutOff s.context).reverse = added := by
      have h := LocalFrames.records_unwind t.domain.frames s.context.frames s.context.records
      rw [hframes, hadded] at h
      exact List.append_cancel_left h
    refine ⟨_, hp, hframes, rfl, ?_, rfl, ?_⟩
    · change t.domain.handlers.tail = _
      rw [hk.handlers]
      rfl
    · rw [takenSince_eq hs hadded hnew, ← hcut, List.reverse_reverse]
      exact hj
  · obtain ⟨hk, hin⟩ := h
    obtain ⟨kept, rest, hover, hnew⟩ := hin.above
    exact ⟨_, kept, rest, protect_act_of_ok hr hk.handlers, rfl, hover, (takenSince_eq hs hover.records hnew).symm⟩

/-- Take a lock in a frame of its own, then another one in a nested region that raises, and raise again. -/
def rethrow : Body :=
  .enterFrame [] fun _ => .acquire ⟨"b", .platform⟩ fun _ =>
    .protect (.acquire ⟨"c", .foreign⟩ fun _ => .finish (.error .unit)) fun r => .finish r

theorem protect_restores_rethrow :
    oneLockHeld.LocksInOrder [] ∧ rethrow.Bracketed oneLockHeld.domain.frames.records oneLockHeld.entered ∧
      ∃ t s', rethrow.script oneLockHeld.entered = (.ok (.error .unit), t) ∧
        Act.protect rethrow.act oneLockHeld = (.ok (.error .unit), s') ∧
        s'.domain.frames = oneLockHeld.domain.frames ∧ s'.domain.pending = none ∧
        s'.world.locks.journal = t.world.locks.journal ++ [.unlocked ⟨"b", .platform⟩] := by
  have hb : rethrow.Bracketed oneLockHeld.domain.frames.records oneLockHeld.entered := ⟨trivial, trivial⟩
  obtain ⟨s', h1, h2, -, -, h5, h6⟩ := protect_restores rethrow locksInOrder_oneLockHeld hb
  exact ⟨locksInOrder_oneLockHeld, hb, _, s', rfl, h1, h2, h5, h6⟩

def keepLock : Body := .acquire ⟨"b", .foreign⟩ fun _ => .finish (.ok .unit)

/-- **A body that returns can change a ledger from before**: a lock that it keeps stands in the frame innermost at
entry. -/
theorem not_isPrefix_of_return :
    ¬ ∀ (b : Body) (s s' : Active) (v : Word), s.LocksInOrder [] →
      b.Bracketed s.domain.frames.records s.entered → Act.protect b.act s = (.ok (.ok v), s') →
      s.domain.frames.toList.IsPrefix s'.domain.frames.toList := by
  intro h
  have hpre := h keepLock oneLockHeld _ .unit locksInOrder_oneLockHeld trivial rfl
  exact absurd hpre (by decide)

end Body

end FiberStacks
