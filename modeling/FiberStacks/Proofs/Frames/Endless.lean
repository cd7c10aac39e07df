import FiberStacks.Proofs.Frames.Table
import FiberStacks.Proofs.Frames.Walk
import FiberStacks.Proofs.Outcome

/-!
# Walks that do not end

A frame ends in the return address of its caller, so a walk over the frames goes up by a word at least with every step.
A descriptor may say that a frame has less than a word, though.  Then the return address that the walk reads next is the
one that led to the frame, and the walk is where it was.

* `Visitor.Leaves` — a visitor that leaves slots as they are;
* `Cursor.Led` — what led the walk to where it stands;
* `Stalls` — **a frame the walk comes back to**: it has less than a word, and its live slots can be shown;
* `step_leaves` — a step goes up or stalls;
* `Endless`, `run_stalls_or_ends` — a walk that does not stall ends before it has made more steps than there are words;
* `scan_endless_iff` — **the walk does not end exactly if it comes to a frame where it stalls**;
* `scan_ends_of_words` — tables of frames of a word or more.
-/

namespace FiberStacks

open FiberStacks.Action

theorem Action.wp_ofExcept {ε σ α : Type} {s : σ} {Q : α → σ → Prop} {E : ε → σ → Prop} (x : Except ε α) :
    (ofExcept x : Action ε σ α).wp s Q E ↔ (∀ a, x = .ok a → Q a s) ∧ ∀ e, x = .error e → E e s := by
  cases x <;> simp [ofExcept, wp]

/-- **A visitor that leaves slots as they are**, whatever it does with what it is shown. -/
def Visitor.Leaves {τ : Type} (v : Visitor τ) : Prop := ∀ w t, (v w t).1 = w

theorem FrameDescriptor.words_eq_zero_iff {d : FrameDescriptor} : d.words = 0 ↔ d.size.toNat < wordBytes := by
  unfold words wordBytes
  omega

theorem Segment.setWordAt_self {s : Segment} {i : Nat} {w : Word} (hw : s.wordAt? i = some w) :
    s.setWordAt i w = s := by
  have hi := lt_of_wordAt? hw
  rw [wordAt?, if_pos hi] at hw
  obtain ⟨hlt, hget⟩ := List.getElem?_eq_some_iff.1 hw
  have hslots : s.slots.set (s.capacity - 1 - i) w = s.slots := by rw [← hget, List.set_getElem_self]
  unfold setWordAt setSlot
  simp only [hslots]

namespace NativeWalk

variable {τ : Type} {table : FrameTable} {v : Visitor τ} {s : Segment} {u u' : Segment × τ} {c c' : Cursor}
  {r : Option Nat} {p n : Nat}

/-! ### Steps -/

def Cursor.position : Cursor → Nat
  | chunk p => p
  | frame _ p _ => p

/-- **What led a walk to where it stands**: to a frame, the return address in the word before. -/
def Cursor.Led (s : Segment) : Cursor → Prop
  | chunk p => p ≤ s.capacity + chunkLinkWords
  | frame _ p a => 1 ≤ p ∧ ∃ w, s.wordAt? (p - 1) = some w ∧ w.bits = a

theorem Cursor.Led.position_le (h : c.Led s) : c.position ≤ s.capacity + chunkLinkWords := by
  cases c with
  | chunk p => exact h
  | frame r p a =>
    obtain ⟨hp, w, hw, -⟩ := h
    have hlt := Segment.lt_of_wordAt? hw
    simp only [position, chunkLinkWords]
    omega

/-- The live slots of a frame are inside the segment. -/
def Showable (s : Segment) (registers : Option Nat) (position : Nat) (live : List LiveSlot) : Prop :=
  ∀ l ∈ live, ∃ i, slotPosition registers position l = .ok i ∧ i < s.capacity

/-- **A frame the walk comes back to**: it has less than a word, and its live slots can be shown. -/
inductive Stalls (table : FrameTable) (s : Segment) : Cursor → Prop where
  | frame {r : Option Nat} {p : Nat} {a : UInt64} {d : FrameDescriptor} (hd : table.find? a = some d)
      (hb : d.isBoundary = false) (hsize : d.size.toNat < wordBytes) (hlive : Showable s r p d.live) :
      Stalls table s (.frame r p a)

theorem wp_wordAt {i : Nat} {Q : Word → Segment × τ → Prop} {E : Fault → Segment × τ → Prop} :
    (wordAt i).wp u Q E ↔ (∀ w, u.1.wordAt? i = some w → Q w u) ∧ (u.1.wordAt? i = none → E (.walkOutside i) u) := by
  unfold wp wordAt
  cases u.1.wordAt? i <;> simp

theorem visitAt_leaves (hv : v.Leaves) (i : Nat) (u : Segment × τ) :
    (visitAt v i).wp u (fun _ u' => u'.1 = u.1 ∧ i < u.1.capacity)
      fun e _ => e ≠ .endlessWalk ∧ ¬ i < u.1.capacity := by
  unfold wp visitAt
  cases hw : u.1.wordAt? i with
  | some w =>
    refine ⟨?_, Segment.lt_of_wordAt? hw⟩
    show u.1.setWordAt i (v w u.2).1 = u.1
    rw [hv, Segment.setWordAt_self hw]
  | none =>
    refine ⟨by simp, fun hi => ?_⟩
    obtain ⟨w, hw'⟩ := Segment.wordAt?_of_lt hi
    simp [hw] at hw'

/-- **The live slots of a frame**: they are shown one after another, unless one of them is not there. -/
theorem visitSlots_leaves (hv : v.Leaves) (r : Option Nat) (p : Nat) (ls : List LiveSlot) (u : Segment × τ) :
    (visitSlots v r p ls).wp u (fun _ u' => u'.1 = u.1 ∧ Showable u.1 r p ls)
      fun e _ => e ≠ .endlessWalk ∧ ¬ Showable u.1 r p ls := by
  induction ls generalizing u with
  | nil => exact ⟨rfl, fun l hl => absurd hl List.not_mem_nil⟩
  | cons l ls ih =>
    unfold visitSlots
    refine (wp_bind ..).2 ((wp_ofExcept _).2 ⟨fun i hi => ?_, fun e he => ⟨?_, fun hshow => ?_⟩⟩)
    · refine wp_bind_of (visitAt_leaves hv i u) ?_ ?_
      · rintro - u₁ ⟨hu, hlt⟩
        refine wp_mono (ih u₁) ?_ ?_
        · rintro - u₂ ⟨hu₂, hshow⟩
          refine ⟨hu₂.trans hu, fun l' hl' => ?_⟩
          rcases List.mem_cons.1 hl' with rfl | hl'
          · exact ⟨i, hi, hlt⟩
          · exact hu ▸ hshow l' hl'
        · rintro e - ⟨he, hshow⟩
          exact ⟨he, fun h => hshow fun l' hl' => hu ▸ h l' (List.mem_cons_of_mem _ hl')⟩
      · rintro e - ⟨he, hout⟩
        refine ⟨he, fun h => hout ?_⟩
        obtain ⟨j, hj, hlt⟩ := h l List.mem_cons_self
        obtain rfl := Except.ok.inj (hi.symm.trans hj)
        exact hlt
    · unfold slotPosition at he
      split at he
      · split at he <;> cases he
        rintro ⟨⟩
      · cases he
    · obtain ⟨j, hj, -⟩ := hshow l List.mem_cons_self
      rw [he] at hj
      cases hj

/-- **A step goes up, or the walk is where it was.** -/
theorem step_leaves (hv : v.Leaves) (hc : c.Led u.1) : (step table v c).wp u
    (fun next u' => u'.1 = u.1 ∧ ∀ c', next = some c' →
      c'.Led u.1 ∧ (c.position < c'.position ∨ Stalls table u.1 c ∧ c' = c)) fun e _ => e ≠ .endlessWalk := by
  cases c with
  | chunk p =>
    show (enterChunk p).wp u _ _
    unfold enterChunk
    simp only [wp_bind, wp_state]
    split
    · exact ⟨rfl, by simp⟩
    · refine (wp_bind ..).2 (wp_wordAt.2 ⟨fun header _ => ?_, by simp⟩)
      refine (wp_bind ..).2 ((wp_ofExcept _).2 ⟨fun r _ => ?_, fun e he => ?_⟩)
      · split
        · exact ⟨rfl, by simp⟩
        · refine (wp_bind ..).2 (wp_wordAt.2 ⟨fun w hw => ⟨rfl, fun c' hc' => ?_⟩, by simp⟩)
          obtain rfl := Option.some.inj hc'
          exact ⟨⟨Nat.succ_pos _, w, hw, rfl⟩, .inl (by simp only [Cursor.position, contextHeaderWords]; omega)⟩
      · unfold registersOf at he
        split at he
        · cases he
        · split at he <;> cases he
          rintro ⟨⟩
  | frame r p a =>
    obtain ⟨hp, w, hw, rfl⟩ := hc
    show (leaveFrame table v r p w.bits).wp u _ _
    unfold leaveFrame
    cases hd : table.find? w.bits with
    | none => rintro ⟨⟩
    | some d =>
      simp only
      split
      · have hlt := Segment.lt_of_wordAt? hw
        refine ⟨rfl, fun c' hc' => ?_⟩
        obtain rfl := Option.some.inj hc'
        simp only [Cursor.Led, Cursor.position, chunkLinkWords]
        exact ⟨by omega, .inl (by omega)⟩
      · next hb =>
        have hb : d.isBoundary = false := by simpa using hb
        refine wp_bind_of (visitSlots_leaves hv r p d.live u) ?_ fun e _ h => h.1
        rintro - u' ⟨hu, hlive⟩
        refine (wp_bind ..).2 (wp_wordAt.2 ⟨fun caller hcaller => ⟨hu, fun c' hc' => ?_⟩, by simp⟩)
        obtain rfl := Option.some.inj hc'
        rw [hu] at hcaller
        refine ⟨⟨Nat.le_trans hp (Nat.le_add_right ..), caller, hcaller, rfl⟩, ?_⟩
        rcases Nat.eq_zero_or_pos d.words with hzero | hpos
        · -- the return address is the one that led here
          rw [hzero, Nat.add_zero] at hcaller ⊢
          obtain rfl := Option.some.inj (hw.symm.trans hcaller)
          exact .inr ⟨.frame hd hb (FrameDescriptor.words_eq_zero_iff.1 hzero) hlive, rfl⟩
        · exact .inl (Nat.lt_add_of_pos_right hpos)

theorem step_stalls (hv : v.Leaves) (hc : c.Led s) (hstall : Stalls table s c) (t : τ) :
    ∃ t', step table v c (s, t) = (.ok (some c), s, t') := by
  obtain @⟨r, p, a, d, hd, hb, hsize, hlive⟩ := hstall
  obtain ⟨hp, w, hw, rfl⟩ := hc
  have hzero := FrameDescriptor.words_eq_zero_iff.2 hsize
  have hstep : (step table v (.frame r p w.bits)).wp (s, t)
      (fun next u' => next = some (.frame r p w.bits) ∧ u'.1 = s) fun _ _ => False := by
    show (leaveFrame table v r p w.bits).wp (s, t) _ _
    unfold leaveFrame
    simp only [hd, hb, Bool.false_eq_true, if_false, hzero, Nat.add_zero]
    refine wp_bind_of (visitSlots_leaves hv r p d.live (s, t)) ?_ fun e _ h => h.2 hlive
    rintro - u' ⟨hu, -⟩
    refine (wp_bind ..).2 (wp_wordAt.2 ⟨fun caller hcaller => ?_, fun hnone => ?_⟩)
    · rw [hu] at hcaller
      obtain rfl := Option.some.inj (hw.symm.trans hcaller)
      exact ⟨rfl, hu⟩
    · simp [hu, hw] at hnone
  obtain ⟨_, ⟨s', t'⟩, hrun, rfl, rfl⟩ := exists_of_wp hstep
  exact ⟨t', hrun⟩

/-! ### Runs -/

/-- **A walk that does not end**: after any number of steps there is a next one. -/
def Endless (table : FrameTable) (v : Visitor τ) (c : Cursor) (u : Segment × τ) : Prop :=
  ∀ n, ∃ c', (run table v n c u).1 = .ok (some c')

theorem run_of_run (h : run table v n c u = (.ok (some c'), u')) (m : Nat) :
    run table v (n + m) c u = run table v m c' u' := by
  induction n generalizing c u with
  | zero =>
    obtain ⟨hc, rfl⟩ := Prod.mk.inj h
    obtain rfl := Option.some.inj (Except.ok.inj hc)
    rw [Nat.zero_add]
  | succ n ih =>
    rcases hstep : step table v c u with ⟨e | _ | c₁, u₁⟩
    · rw [run, bind_of_error hstep] at h
      cases h
    · rw [run, bind_of_ok hstep] at h
      cases h
    · rw [run_succ_of hstep] at h
      rw [Nat.succ_add, run_succ_of hstep]
      exact ih h

/-- **Wherever a walk comes**, it was led there, and the segment is as it was. -/
theorem run_leaves (hv : v.Leaves) (hc : c.Led u.1) : (run table v n c).wp u
    (fun next u' => u'.1 = u.1 ∧ ∀ c', next = some c' → c'.Led u.1) fun e _ => e ≠ .endlessWalk := by
  induction n generalizing c u with
  | zero => exact ⟨rfl, fun c' hc' => Option.some.inj hc' ▸ hc⟩
  | succ n ih =>
    refine wp_bind_of (step_leaves hv hc) ?_ fun e _ he => he
    rintro (_ | c₁) u₁ ⟨hu, hled⟩
    · exact ⟨hu, by simp⟩
    · have hled₁ : c₁.Led u₁.1 := hu ▸ (hled c₁ rfl).1
      refine wp_mono (ih hled₁) ?_ fun e _ he => he
      rintro next u' ⟨hu', hled'⟩
      exact ⟨hu'.trans hu, hu ▸ hled'⟩

theorem run_stalls (hv : v.Leaves) (hc : c.Led s) (hstall : Stalls table s c) (n : Nat) (t : τ) :
    ∃ t', run table v n c (s, t) = (.ok (some c), s, t') := by
  induction n generalizing t with
  | zero => exact ⟨t, rfl⟩
  | succ n ih =>
    obtain ⟨t₁, hstep⟩ := step_stalls hv hc hstall t
    obtain ⟨t', hrun⟩ := ih t₁
    exact ⟨t', (run_succ_of hstep n).trans hrun⟩

theorem endless_of_stalls {t t' : τ} (hv : v.Leaves) (hrun : run table v n c (s, t) = (.ok (some c'), s, t'))
    (hc : c'.Led s) (hstall : Stalls table s c') : Endless table v c (s, t) := by
  intro m
  by_contra hend
  have hadd := run_add (not_exists.1 hend) n
  obtain ⟨t₁, hstays⟩ := run_stalls hv hc hstall m t'
  rw [Nat.add_comm, run_of_run hrun, hstays] at hadd
  exact hend ⟨c', by rw [← hadd]⟩

/-- **A walk stalls or ends**: every step that does not stall goes up, and the walk stays inside the segment. -/
theorem run_stalls_or_ends (hv : v.Leaves) (hc : c.Led s) (hn : s.capacity + chunkLinkWords < c.position + n) (t : τ) :
    (∃ m c' t', run table v m c (s, t) = (.ok (some c'), s, t') ∧ Stalls table s c') ∨
      ∀ c', (run table v n c (s, t)).1 ≠ .ok (some c') := by
  induction n generalizing c t with
  | zero => exact absurd hc.position_le (Nat.not_le_of_lt hn)
  | succ n ih =>
    have hstep : (step table v c).wp (s, t) _ _ := step_leaves hv hc
    rcases hfirst : step table v c (s, t) with ⟨e | _ | c₁, s₁, t₁⟩
    · exact .inr fun c' => by
        rw [run, bind_of_error hfirst]
        rintro ⟨⟩
    · exact .inr fun c' => by
        rw [run, bind_of_ok hfirst]
        rintro ⟨⟩
    · obtain ⟨rfl, hled⟩ := (wp_of_ok hfirst).1 hstep
      obtain ⟨hled₁, hup | ⟨hstall, -⟩⟩ := hled c₁ rfl
      · rcases ih hled₁ (by omega) t₁ with ⟨m, c', t', hrun, hstall⟩ | hends
        · exact .inl ⟨m + 1, c', t', (run_succ_of hfirst m).trans hrun, hstall⟩
        · exact .inr fun c' => by
            rw [run_succ_of hfirst]
            exact hends c'
      · exact .inl ⟨0, c, t, rfl, hstall⟩

/-- **The walks that do not end** are those that stall; the others take no more steps than the words, and three. -/
theorem endless_iff (hv : v.Leaves) (hc : c.Led s) (t : τ) :
    (Endless table v c (s, t) ↔ ∃ n c' t', run table v n c (s, t) = (.ok (some c'), s, t') ∧ Stalls table s c') ∧
      (¬ Endless table v c (s, t) → ∀ n, s.capacity + chunkLinkWords < n →
        ∀ c', (run table v n c (s, t)).1 ≠ .ok (some c')) := by
  have hstalls : (∃ n c' t', run table v n c (s, t) = (.ok (some c'), s, t') ∧ Stalls table s c') →
      Endless table v c (s, t) := by
    rintro ⟨n, c', t', hrun, hstall⟩
    exact endless_of_stalls hv hrun (((wp_of_ok hrun).1 (run_leaves hv hc)).2 c' rfl) hstall
  refine ⟨⟨fun hendless => ?_, hstalls⟩, fun hends n hn => ?_⟩
  · refine (run_stalls_or_ends hv hc (n := s.capacity + chunkLinkWords + 1) (by omega) t).resolve_right fun hends => ?_
    obtain ⟨c', hrun⟩ := hendless (s.capacity + chunkLinkWords + 1)
    exact hends c' hrun
  · exact (run_stalls_or_ends hv hc (by omega) t).resolve_left fun hstall => hends (hstalls hstall)

/-! ### Scans -/

/-- The walk of a scan begins at the stack pointer. -/
def start (s : Segment) : Cursor := .chunk (s.capacity - s.used)

theorem start_led (s : Segment) : (start s).Led s := by
  unfold start Cursor.Led
  omega

theorem visitMetadata_leaves (hv : v.Leaves) (s : Segment) (t : τ) : (Segment.visitMetadata v s t).1 = s := by
  simp only [Segment.visitMetadata, hv _ _]

/-- **A scan stops as endless** where its walk is. -/
theorem scan_eq_endlessWalk_iff (hv : v.Leaves) (t : τ) :
    (scan table v (s, t)).1 = .error .endlessWalk ↔ Endless table v (start s) (s, t) := by
  have hlimit : s.capacity + chunkLinkWords < stepLimit s.capacity := by
    unfold stepLimit chunkLinkWords
    omega
  unfold scan
  rw [bind_of_ok (show Action.state (s, t) = (.ok (s, t), s, t) from rfl)]
  change ((if s.used = 0 then pure () else _ : Walk τ Unit) (s, t)).1 = _ ↔ _
  split
  · next hused =>
    -- nothing is in use: the walk is at the high end
    refine ⟨(by cases ·), fun hendless => ?_⟩
    obtain ⟨c', hrun⟩ := hendless 1
    have hend : step table v (start s) (s, t) = (.ok none, s, t) := step_end (by simp [hused])
    rw [run, bind_of_ok hend] at hrun
    cases hrun
  · rw [show Cursor.chunk (s.capacity - s.used) = start s from rfl]
    rcases hrun : run table v (stepLimit s.capacity) (start s) (s, t) with ⟨e | _ | c', u'⟩
    · have he : e ≠ .endlessWalk := (wp_of_error hrun).1 (run_leaves hv (start_led s))
      rw [bind_of_error hrun]
      refine ⟨fun h => absurd (Except.error.inj h) he, fun hendless => ?_⟩
      obtain ⟨c', hgoes⟩ := hendless (stepLimit s.capacity)
      simp [hrun] at hgoes
    · rw [bind_of_ok hrun]
      refine ⟨(by cases ·), fun hendless => ?_⟩
      obtain ⟨c', hgoes⟩ := hendless (stepLimit s.capacity)
      simp [hrun] at hgoes
    · rw [bind_of_ok hrun]
      refine ⟨fun _ => ?_, fun _ => rfl⟩
      by_contra hends
      exact (endless_iff hv (start_led s) t).2 hends _ hlimit c' (by rw [hrun])

end NativeWalk

namespace Segment

open FiberStacks.NativeWalk

variable {τ : Type} {v : Visitor τ}

/-- **When the scan of a native stack ends**, whatever the words and the table are.  With a visitor that leaves slots as
they are, the walk never ends if and only if it comes to a frame of less than a word whose live slots can be shown.
Otherwise it returns or stops before it has made three steps more than the segment has words; and the scan itself stops
as endless exactly if the walk never ends. -/
theorem scan_endless_iff (hv : v.Leaves) (table : FrameTable) (s : Segment) (t : τ) :
    let u := visitMetadata v s t
    (Endless table v (start s) u ↔
      ∃ n c t', run table v n (start s) u = (.ok (some c), s, t') ∧ Stalls table s c) ∧
    (¬ Endless table v (start s) u → ∀ c, (run table v (s.capacity + 3) (start s) u).1 ≠ .ok (some c)) ∧
    ((scan (.native table) v (s, t)).1 = .error .endlessWalk ↔ Endless table v (start s) u) := by
  intro u
  have hu : u = (s, u.2) := Prod.ext (visitMetadata_leaves hv s t) rfl
  have hscan : scan (.native table) v (s, t) = NativeWalk.scan table v u := rfl
  rw [hscan, hu]
  obtain ⟨hiff, hends⟩ : (Endless table v (start s) (s, u.2) ↔ _) ∧ _ := endless_iff hv (start_led s) u.2
  exact ⟨hiff, fun h => hends h _ (Nat.lt_succ_self _), scan_eq_endlessWalk_iff hv u.2⟩

/-- A chunk with a frame of no words between the return address that leads to it and that of the bottom of a fiber. -/
def overNoWords : Segment :=
  { blank 8 .zero with
    slots := [⟨exceptionReturn⟩, .null, ⟨valueReturn⟩, ⟨0x1000⟩, .null, .null, .null, .null]
    used := 6
    used_le := by decide }

def noWords : FrameTable := .build [⟨0x1000, 0, []⟩]

theorem stalls_noWords : Stalls noWords overNoWords (.frame none 5 0x1000) :=
  .frame (d := ⟨0x1000, 0, []⟩) (by decide +kernel) rfl (by decide) fun _ hl => absurd hl List.not_mem_nil

theorem run_noWords : run noWords (.recording id) 1 (start overNoWords) (visitMetadata (.recording id) overNoWords []) =
    (.ok (some (.frame none 5 0x1000)), overNoWords, [.unit, .unit, .unit, .unit]) :=
  Prod.ext (by decide +kernel) (by decide +kernel)

theorem leaves_recording : (Visitor.recording id).Leaves := fun _ _ => rfl

/-- The walk comes to the frame with its first step, and stays. -/
theorem scan_endless_iff_noWords :
    Endless noWords (.recording id) (start overNoWords) (visitMetadata (.recording id) overNoWords []) ∧
      (scan (.native noWords) (.recording id) (overNoWords, [])).1 = .error .endlessWalk := by
  obtain ⟨hiff, -, hscan⟩ := scan_endless_iff leaves_recording noWords overNoWords []
  have hendless := hiff.2 ⟨1, _, _, run_noWords, stalls_noWords⟩
  exact ⟨hendless, hscan.2 hendless⟩

/-- **The walk need not end**, for the descriptors that a table is built from. -/
theorem not_scan_ends : ¬ ∀ (ds es : List FrameDescriptor) (s : Segment) (v : Visitor (List Word)) (seen : List Word),
    v.Leaves → ∃ n, ∀ c, (run (es.foldl FrameTable.insert (.build ds)) v n (start s)
      (visitMetadata v s seen)).1 ≠ .ok (some c) := by
  intro h
  obtain ⟨n, hends⟩ := h [⟨0x1000, 0, []⟩] [] overNoWords (.recording id) [] leaves_recording
  have hled : Cursor.Led overNoWords (.frame none 5 0x1000) := ⟨by decide, ⟨0x1000⟩, rfl, rfl⟩
  obtain ⟨c, hgoes⟩ := endless_of_stalls leaves_recording run_noWords hled stalls_noWords n
  exact hends c hgoes

/-- **Frames of a word or more**: the scan ends for every table of them, whatever the words of the segment are. -/
theorem scan_ends_of_words (hv : v.Leaves) {ds es : List FrameDescriptor}
    (hwords : ∀ d ∈ ds ++ es, d.isBoundary = true ∨ wordBytes ≤ d.size.toNat) (s : Segment) (t : τ) :
    (scan (.native (es.foldl FrameTable.insert (.build ds))) v (s, t)).1 ≠ .error .endlessWalk := by
  have hu : visitMetadata v s t = (s, (visitMetadata v s t).2) := Prod.ext (visitMetadata_leaves hv s t) rfl
  change (NativeWalk.scan _ v (visitMetadata v s t)).1 ≠ _
  rw [hu, Ne, scan_eq_endlessWalk_iff hv, (endless_iff hv (start_led s) _).1]
  rintro ⟨n, c, t', -, @⟨r, p, a, d, hd, hb, hsize, -⟩⟩
  rw [(FrameTable.represents_foldl_insert_build ds es).find?_eq a] at hd
  have hmem := (FrameTable.mem_of_latest hd).1
  simp only [List.mem_cons] at hmem
  rcases hmem with rfl | rfl | hmem
  · cases hb
  · cases hb
  · rcases hwords d hmem with hboundary | hle
    · simp [hb] at hboundary
    · exact absurd hle (Nat.not_le_of_lt hsize)

end Segment

end FiberStacks
