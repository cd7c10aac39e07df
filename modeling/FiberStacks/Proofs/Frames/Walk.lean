import FiberStacks.Segment.Roots

/-!
# Walking the frames of a stack

A stack of compiled code is a row of chunks, and a chunk a row of frames between a context header and two link words.
The walk goes from the stack pointer to the high end over exactly these, and shows the live slots of each frame.  What
the visitor stores does not lead it astray, for no live slot is a word that the walk steers by.

* `Frame`, `Chunk` — the parts of a stack, with the words they are made of;
* `Frame.slots`, `Chunk.slots`, `Chunk.controls` — the words shown, and the words steered by;
* `FrameLayout` — a segment whose used words are those of a row of chunks;
* `showAll` — words shown one after another;
* `run_frames`, `run_chunks` — the walk over the frames of a chunk, and over the chunks;
* `scan_frameLayout` — **the walk shows the live slots of the frames**, and nothing else.
-/

namespace FiberStacks

/-! ### Frames and chunks -/

/-- A frame: its words but the last, and the return address of its caller in the last one. -/
structure Frame where
  descriptor : FrameDescriptor
  body : List Word
  caller : Word
deriving DecidableEq, Repr

/-- A chunk: a context header, the return address of the topmost frame, the frames, and two link words. -/
structure Chunk where
  /-- Where the saved registers begin, counted from the low end, if there are any. -/
  spill : Option Nat
  header : Word
  exceptionLink : Word
  top : Word
  frames : List Frame
  links : Word × Word
deriving DecidableEq, Repr

/-- The position a live slot of a frame stands for. -/
def LiveSlot.place (spill : Option Nat) (position : Nat) : LiveSlot → Nat
  | register r => spill.getD 0 + r.toNat
  | stack offset => position + offset.toNat / wordBytes

namespace Frame

def words (f : Frame) : List Word := f.body ++ [f.caller]

/-- The live slots of frames, the first of which begins at `position`. -/
def slots (spill : Option Nat) : (position : Nat) → List Frame → List Nat
  | _, [] => []
  | position, f :: fs =>
    f.descriptor.live.map (LiveSlot.place spill position) ++ slots spill (position + f.words.length) fs

theorem slots_cons (spill : Option Nat) (position : Nat) (f : Frame) (fs : List Frame) :
    slots spill position (f :: fs) =
      f.descriptor.live.map (LiveSlot.place spill position) ++ slots spill (position + f.words.length) fs := rfl

theorem length_le_words (fs : List Frame) : fs.length ≤ (fs.flatMap words).length := by
  induction fs with
  | nil => exact Nat.le_refl _
  | cons f fs ih =>
    simp only [List.flatMap_cons, List.length_append, List.length_cons, words]
    omega

/-- Where the return addresses of their callers are. -/
def returns : (position : Nat) → List Frame → List Nat
  | _, [] => []
  | position, f :: fs => (position + f.body.length) :: returns (position + f.words.length) fs

/-- **Frames follow a return address**: each is described by the address that leads to it and as long as described, and
the last one returns to the top of the chunk. -/
inductive Follow (table : FrameTable) : UInt64 → List Frame → Prop where
  | boundary {a : UInt64} {d : FrameDescriptor} (hd : table.find? a = some d) (hb : d.isBoundary = true) :
      Follow table a []
  | frame {a : UInt64} {f : Frame} {fs : List Frame} (hd : table.find? a = some f.descriptor)
      (hb : f.descriptor.isBoundary = false) (hw : f.words.length = f.descriptor.words)
      (hfs : Follow table f.caller.bits fs) : Follow table a (f :: fs)

end Frame

namespace Chunk

def words (c : Chunk) : List Word :=
  [c.header, c.exceptionLink, c.top] ++ c.frames.flatMap Frame.words ++ [c.links.1, c.links.2]

theorem length_words (c : Chunk) : c.words.length = 3 + (c.frames.flatMap Frame.words).length + 2 := by
  simp only [words, List.length_append, List.length_cons, List.length_nil]

/-- The live slots of chunks, the first of which begins at `position`. -/
def slots : (position : Nat) → List Chunk → List Nat
  | _, [] => []
  | position, c :: cs => Frame.slots c.spill (position + 3) c.frames ++ slots (position + c.words.length) cs

/-- Their header words and return addresses. -/
def controls : (position : Nat) → List Chunk → List Nat
  | _, [] => []
  | position, c :: cs =>
    [position, position + 1, position + 2] ++ Frame.returns (position + 3) c.frames ++
      controls (position + c.words.length) cs

/-- **A chunk of a segment**: the header tells where the saved registers begin, the frames follow the return address,
and a frame keeps a reference in a register only if they are saved. -/
structure WellFormed (table : FrameTable) (s : Segment) (c : Chunk) : Prop where
  unsaved : c.spill = none → c.header = .null
  saved : ∀ i, c.spill = some i → ∃ offset, c.header.int? = some offset ∧ s.index? offset = some i
  follow : Frame.Follow table c.top.bits c.frames
  registers : ∀ f ∈ c.frames, ∀ r, .register r ∈ f.descriptor.live → c.spill.isSome

end Chunk

/-- **A segment of compiled code**: its used words are those of a row of chunks, and the live slots are inside the
segment and no header word or return address. -/
structure FrameLayout (table : FrameTable) (s : Segment) (cs : List Chunk) : Prop where
  words : s.usedRegion = cs.flatMap Chunk.words
  chunks : ∀ c ∈ cs, c.WellFormed table s
  inside : ∀ i ∈ Chunk.slots (s.capacity - s.used) cs, i < s.capacity
  apart : ∀ i ∈ Chunk.slots (s.capacity - s.used) cs, i ∉ Chunk.controls (s.capacity - s.used) cs

/-! ### Words by position -/

namespace Segment

variable {s : Segment} {i j k : Nat} {w : Word}

theorem wordAt?_of_lt (hi : i < s.capacity) : ∃ w, s.wordAt? i = some w := by
  rw [wordAt?, if_pos hi]
  exact ⟨_, List.getElem?_eq_getElem (by unfold capacity at *; omega)⟩

theorem lt_of_wordAt? (hw : s.wordAt? i = some w) : i < s.capacity := by
  refine Decidable.byContradiction fun hi => ?_
  rw [wordAt?, if_neg hi] at hw
  cases hw

@[simp] theorem capacity_setWordAt (s : Segment) (i : Nat) (w : Word) : (s.setWordAt i w).capacity = s.capacity :=
  capacity_setSlot s _ w

theorem wordAt?_setWordAt (hi : i < s.capacity) (w : Word) (j : Nat) :
    (s.setWordAt i w).wordAt? j = if j = i then some w else s.wordAt? j := by
  have hplace : s.capacity - 1 - i < s.slots.length := by unfold capacity at *; omega
  unfold wordAt?
  rw [capacity_setWordAt]
  by_cases hj : j < s.capacity
  · rw [if_pos hj, if_pos hj, setWordAt, setSlot, List.getElem?_set]
    by_cases hji : j = i
    · rw [if_pos hji, if_pos (by rw [hji]), if_pos hplace]
    · rw [if_neg hji, if_neg (by omega)]
  · rw [if_neg hj, if_neg hj, if_neg (by omega)]

theorem wordAt?_usedRegion (hk : k < s.used) : s.wordAt? (s.capacity - s.used + k) = s.usedRegion[k]? := by
  have hle := s.used_le
  have hlen : (s.slots.take s.used).length = s.used := by rw [List.length_take, Nat.min_eq_left hle]
  rw [wordAt?, if_pos (by unfold capacity; omega), usedRegion, List.getElem?_reverse (by omega), hlen,
    List.getElem?_take_of_lt (by omega)]
  congr 1
  unfold capacity
  omega

def HasWords (s : Segment) (position : Nat) (ws : List Word) : Prop :=
  ∀ k w, ws[k]? = some w → s.wordAt? (position + k) = some w

theorem hasWords_append {p : Nat} {l m : List Word} :
    s.HasWords p (l ++ m) ↔ s.HasWords p l ∧ s.HasWords (p + l.length) m := by
  constructor
  · intro h
    refine ⟨fun k w hk => h k w ?_, fun k w hk => ?_⟩
    · rwa [List.getElem?_append_left (List.getElem?_eq_some_iff.1 hk).1]
    · rw [Nat.add_assoc]
      refine h _ w ?_
      rwa [List.getElem?_append_right (Nat.le_add_right _ _), Nat.add_sub_cancel_left]
  · rintro ⟨hl, hm⟩ k w hk
    rcases Nat.lt_or_ge k l.length with hlt | hge
    · exact hl k w (by rwa [List.getElem?_append_left hlt] at hk)
    · rw [List.getElem?_append_right hge] at hk
      have hword := hm _ w hk
      rwa [Nat.add_assoc, Nat.add_sub_cancel' hge] at hword

theorem hasWords_usedRegion (s : Segment) : s.HasWords (s.capacity - s.used) s.usedRegion := by
  intro k w hk
  rw [wordAt?_usedRegion (s.length_usedRegion ▸ (List.getElem?_eq_some_iff.1 hk).1), hk]

/-- The header of a chunk, the return address of its topmost frame, and its frames. -/
theorem HasWords.chunk {p : Nat} {c : Chunk} (h : s.HasWords p c.words) :
    s.wordAt? p = some c.header ∧ s.wordAt? (p + 2) = some c.top ∧
      s.HasWords (p + 3) (c.frames.flatMap Frame.words) := by
  rw [Chunk.words, hasWords_append, hasWords_append] at h
  exact ⟨h.1.1 0 _ rfl, h.1.1 2 _ rfl, h.1.2⟩

/-- **Steered alike**: as large as another segment, with the same words at some positions. -/
structure Steers (ks : List Nat) (s u : Segment) : Prop where
  capacity : u.capacity = s.capacity
  words : ∀ i ∈ ks, u.wordAt? i = s.wordAt? i

end Segment

/-! ### Words shown -/

section Show

variable {τ : Type} {v : Visitor τ} {s : Segment} {u : Segment × τ} {i : Nat} {is ks : List Nat}

def showAt (v : Visitor τ) (u : Segment × τ) (i : Nat) : Segment × τ :=
  match u.1.wordAt? i with
  | some w => (u.1.setWordAt i (v w u.2).1, (v w u.2).2)
  | none => u

/-- Show the words at positions, one after another. -/
def showAll (v : Visitor τ) (is : List Nat) (u : Segment × τ) : Segment × τ := is.foldl (showAt v) u

theorem showAll_append (v : Visitor τ) (is js : List Nat) (u : Segment × τ) :
    showAll v (is ++ js) u = showAll v js (showAll v is u) := List.foldl_append

theorem showAt_eq (v : Visitor τ) (u : Segment × τ) (i : Nat) :
    ∃ slots h, (showAt v u i).1 = { u.1 with slots, used_le := h } ∧ slots.length = u.1.slots.length ∧
      ∀ j, j ≠ i → (showAt v u i).1.wordAt? j = u.1.wordAt? j := by
  unfold showAt
  cases hw : u.1.wordAt? i with
  | none => exact ⟨u.1.slots, u.1.used_le, rfl, rfl, fun _ _ => rfl⟩
  | some w =>
    refine ⟨_, _, rfl, List.length_set, fun j hj => ?_⟩
    rw [Segment.wordAt?_setWordAt (Segment.lt_of_wordAt? hw), if_neg hj]

theorem showAll_eq (v : Visitor τ) (is : List Nat) (u : Segment × τ) :
    ∃ slots h, (showAll v is u).1 = { u.1 with slots, used_le := h } ∧ slots.length = u.1.slots.length ∧
      ∀ j, j ∉ is → (showAll v is u).1.wordAt? j = u.1.wordAt? j := by
  induction is generalizing u with
  | nil => exact ⟨u.1.slots, u.1.used_le, rfl, rfl, fun _ _ => rfl⟩
  | cons i is ih =>
    obtain ⟨l, hl, he, hlen, hwords⟩ := showAt_eq v u i
    obtain ⟨l', hl', he', hlen', hwords'⟩ := ih (showAt v u i)
    have hused : (showAt v u i).1.used = u.1.used := by rw [he]
    refine ⟨l', hused ▸ hl', ?_, ?_, fun j hj => ?_⟩
    · show (showAll v is (showAt v u i)).1 = _
      rw [he']
      simp only [he]
    · rw [hlen', he, hlen]
    · rw [List.mem_cons, not_or] at hj
      exact (hwords' j hj.2).trans (hwords j hj.1)

/-- **What is shown is not steered by.** -/
theorem Segment.Steers.showAll (hs : s.Steers ks u.1) (his : ∀ i ∈ is, i ∉ ks) (v : Visitor τ) :
    s.Steers ks (showAll v is u).1 := by
  obtain ⟨l, hl, he, hlen, hwords⟩ := showAll_eq v is u
  refine ⟨?_, fun i hi => (hwords i fun hmem => his i hmem hi).trans (hs.words i hi)⟩
  rw [← hs.capacity, he]
  exact hlen

end Show

namespace NativeWalk

variable {τ : Type} {table : FrameTable} {v : Visitor τ} {s : Segment} {u : Segment × τ} {spill : Option Nat}
  {p i n : Nat} {a : UInt64} {d : FrameDescriptor} {f : Frame} {fs : List Frame} {c : Chunk} {cs : List Chunk}
  {ks : List Nat} {ls : List LiveSlot} {w : Word}

/-! ### One step -/

theorem wordAt_of (hw : u.1.wordAt? i = some w) : wordAt i u = (.ok w, u) := by
  unfold wordAt
  rw [hw]

theorem visitAt_of_lt (hi : i < u.1.capacity) : visitAt v i u = (.ok (), showAt v u i) := by
  obtain ⟨w, hw⟩ := Segment.wordAt?_of_lt hi
  unfold visitAt showAt
  rw [hw]

theorem slotPosition_eq {l : LiveSlot} (hl : ∀ r, l = .register r → spill.isSome) :
    slotPosition spill p l = .ok (l.place spill p) := by
  cases l with
  | stack offset => rfl
  | register r =>
    obtain ⟨base, rfl⟩ := Option.isSome_iff_exists.1 (hl r rfl)
    rfl

/-- **The live slots of a frame** are shown in the order of its descriptor. -/
theorem visitSlots_eq (hr : ∀ r, .register r ∈ ls → spill.isSome)
    (hi : ∀ i ∈ ls.map (LiveSlot.place spill p), i < u.1.capacity) :
    visitSlots v spill p ls u = (.ok (), showAll v (ls.map (LiveSlot.place spill p)) u) := by
  induction ls generalizing u with
  | nil => rfl
  | cons l ls ih =>
    have hl : slotPosition spill p l = .ok (l.place spill p) :=
      slotPosition_eq fun r he => hr r (he ▸ List.mem_cons_self)
    have hvisit : visitAt v (l.place spill p) u = (.ok (), showAt v u (l.place spill p)) :=
      visitAt_of_lt (hi _ (List.mem_map_of_mem List.mem_cons_self))
    obtain ⟨_, _, he, hlen, -⟩ := showAt_eq v u (l.place spill p)
    have hcap : (showAt v u (l.place spill p)).1.capacity = u.1.capacity := by
      rw [he]
      exact hlen
    unfold visitSlots
    rw [hl]
    refine (Action.bind_of_ok rfl).trans ((Action.bind_of_ok hvisit).trans ?_)
    refine ih (fun r hmem => hr r (List.mem_cons_of_mem _ hmem)) fun i hmem => ?_
    rw [hcap]
    exact hi i (List.mem_cons_of_mem _ hmem)

theorem step_frame (hd : table.find? a = some d) (hb : d.isBoundary = false)
    (hr : ∀ r, .register r ∈ d.live → spill.isSome)
    (hi : ∀ i ∈ d.live.map (LiveSlot.place spill p), i < u.1.capacity)
    (hw : (showAll v (d.live.map (LiveSlot.place spill p)) u).1.wordAt? (p + d.words - 1) = some w) :
    step table v (.frame spill p a) u =
      (.ok (some (.frame spill (p + d.words) w.bits)), showAll v (d.live.map (LiveSlot.place spill p)) u) := by
  show leaveFrame table v spill p a u = _
  unfold leaveFrame
  rw [hd]
  simp only [hb, Bool.false_eq_true, if_false]
  exact (Action.bind_of_ok (visitSlots_eq hr hi)).trans (Action.bind_of_ok (wordAt_of hw))

theorem step_boundary (hd : table.find? a = some d) (hb : d.isBoundary = true) :
    step table v (.frame spill p a) u = (.ok (some (.chunk (p + chunkLinkWords))), u) := by
  show leaveFrame table v spill p a u = _
  unfold leaveFrame
  rw [hd]
  simp only [hb, if_true]
  rfl

theorem registersOf_eq (hc : c.WellFormed table s) (hcap : u.1.capacity = s.capacity) :
    registersOf u.1 c.header p = .ok c.spill := by
  have hindex : u.1.index? = s.index? := by
    funext o
    rw [Segment.index?, Segment.index?, Segment.depth?, Segment.depth?, hcap]
  unfold registersOf
  cases hspill : c.spill with
  | none => rw [if_pos (hc.unsaved hspill)]
  | some base =>
    obtain ⟨o, ho, hbase⟩ := hc.saved base hspill
    have hnull : c.header ≠ .null := by
      intro he
      rw [he] at ho
      cases ho
    rw [if_neg hnull, ho, Option.bind_some, hindex, hbase]

theorem step_chunk (hc : c.WellFormed table s) (hcap : u.1.capacity = s.capacity)
    (hheader : u.1.wordAt? p = some c.header) (htop : u.1.wordAt? (p + 2) = some c.top) :
    step table v (.chunk p) u = (.ok (some (.frame c.spill (p + 3) c.top.bits)), u) := by
  have hlt := Segment.lt_of_wordAt? htop
  unfold step enterChunk
  refine (Action.bind_of_ok rfl).trans ?_
  simp only
  rw [if_neg (by omega)]
  refine (Action.bind_of_ok (wordAt_of hheader)).trans ?_
  rw [registersOf_eq hc hcap]
  refine (Action.bind_of_ok rfl).trans ?_
  rw [if_neg (by simp only [contextHeaderWords]; omega)]
  exact Action.bind_of_ok (wordAt_of htop)

theorem step_end (hp : p = u.1.capacity) : step table v (.chunk p) u = (.ok none, u) := by
  unfold step enterChunk
  refine (Action.bind_of_ok rfl).trans ?_
  simp only
  rw [if_pos hp]
  rfl

theorem run_succ_of {c c' : Cursor} {u' : Segment × τ} (h : step table v c u = (.ok (some c'), u')) (n : Nat) :
    run table v (n + 1) c u = run table v n c' u' :=
  Action.bind_of_ok h

/-! ### The walk over a chunk, and over all of them -/

/-- **The frames of a chunk**: from the topmost one to past the links, one step for each of them and one for the
boundary. -/
theorem run_frames (hfs : Frame.Follow table a fs) (hs : s.Steers ks u.1)
    (hwords : s.HasWords p (fs.flatMap Frame.words)) (hreturns : ∀ i ∈ Frame.returns p fs, i ∈ ks)
    (hregisters : ∀ f ∈ fs, ∀ r, .register r ∈ f.descriptor.live → spill.isSome)
    (hslots : ∀ i ∈ Frame.slots spill p fs, i < s.capacity ∧ i ∉ ks) (n : Nat) :
    run table v (n + 1 + fs.length) (.frame spill p a) u =
      run table v n (.chunk (p + (fs.flatMap Frame.words).length + 2)) (showAll v (Frame.slots spill p fs) u) := by
  induction hfs generalizing p u with
  | boundary hd hb => exact run_succ_of (step_boundary hd hb) n
  | @frame a f fs hd hb hlen _ ih =>
    rw [Frame.slots_cons] at hslots ⊢
    rw [List.flatMap_cons, Segment.hasWords_append] at hwords
    have hshown : s.Steers ks (showAll v (f.descriptor.live.map (LiveSlot.place spill p)) u).1 :=
      hs.showAll (fun i hi => (hslots i (List.mem_append_left _ hi)).2) v
    -- The return address is the last word of the frame, and no live slot.
    have hcaller : (showAll v (f.descriptor.live.map (LiveSlot.place spill p)) u).1.wordAt?
        (p + f.descriptor.words - 1) = some f.caller := by
      have hplace : p + f.descriptor.words - 1 = p + f.body.length := by
        rw [← hlen, Frame.words, List.length_append]
        rfl
      rw [hplace, hshown.words _ (hreturns _ List.mem_cons_self)]
      exact hwords.1 _ _ (by simp [Frame.words])
    have hstep := step_frame hd hb (hregisters f List.mem_cons_self)
      (fun i hi => hs.capacity ▸ (hslots i (List.mem_append_left _ hi)).1) hcaller
    rw [List.length_cons, ← Nat.add_assoc, run_succ_of hstep, ← hlen,
      ih hshown hwords.2 (fun i hi => hreturns i (List.mem_cons_of_mem _ hi))
        (fun g hg => hregisters g (List.mem_cons_of_mem _ hg))
        (fun i hi => hslots i (List.mem_append_right _ hi)),
      ← showAll_append, List.flatMap_cons, List.length_append, Nat.add_assoc p]

/-- **The chunks of a segment**: from the stack pointer to the high end. -/
theorem run_chunks (hs : s.Steers ks u.1) (hcs : ∀ c ∈ cs, c.WellFormed table s)
    (hwords : s.HasWords p (cs.flatMap Chunk.words)) (hend : p + (cs.flatMap Chunk.words).length = s.capacity)
    (hcontrols : ∀ i ∈ Chunk.controls p cs, i ∈ ks)
    (hslots : ∀ i ∈ Chunk.slots p cs, i < s.capacity ∧ i ∉ ks) (hn : (cs.flatMap Chunk.words).length < n) :
    run table v n (.chunk p) u = (.ok none, showAll v (Chunk.slots p cs) u) := by
  induction cs generalizing n p u with
  | nil =>
    obtain ⟨n, rfl⟩ := Nat.exists_eq_succ_of_ne_zero (Nat.ne_of_gt hn)
    exact Action.bind_of_ok (step_end (hend.trans hs.capacity.symm))
  | cons c cs ih =>
    have hc := hcs c List.mem_cons_self
    rw [List.flatMap_cons, Segment.hasWords_append] at hwords
    rw [List.flatMap_cons, List.length_append] at hend hn
    have hlen := c.length_words
    have hframes := Frame.length_le_words c.frames
    obtain ⟨m, rfl⟩ : ∃ m, n = m + 1 + c.frames.length + 1 := ⟨n - 2 - c.frames.length, by omega⟩
    obtain ⟨hchunk, hrest⟩ := hwords
    obtain ⟨hfirst, hthird, hframesWords⟩ := hchunk.chunk
    have hheader : u.1.wordAt? p = some c.header :=
      (hs.words _ (hcontrols _ (by simp [Chunk.controls]))).trans hfirst
    have htop : u.1.wordAt? (p + 2) = some c.top :=
      (hs.words _ (hcontrols _ (by simp [Chunk.controls]))).trans hthird
    have hreturns : ∀ i ∈ Frame.returns (p + 3) c.frames, i ∈ ks := fun i hi =>
      hcontrols i (List.mem_append_left _ (List.mem_append_right _ hi))
    have hlive : ∀ i ∈ Frame.slots c.spill (p + 3) c.frames, i < s.capacity ∧ i ∉ ks := fun i hi =>
      hslots i (List.mem_append_left _ hi)
    have hpast : p + 3 + (c.frames.flatMap Frame.words).length + 2 = p + c.words.length := by omega
    rw [run_succ_of (step_chunk hc hs.capacity hheader htop),
      run_frames hc.follow hs hframesWords hreturns hc.registers hlive m, hpast,
      ih (hs.showAll (fun i hi => (hlive i hi).2) v) (fun d hd => hcs d (List.mem_cons_of_mem _ hd)) hrest
        (by omega) (fun i hi => hcontrols i (List.mem_append_right _ hi))
        (fun i hi => hslots i (List.mem_append_right _ hi)) (by omega),
      ← showAll_append]
    rfl

theorem scan_of_run {u' : Segment × τ} (hused : u.1.used ≠ 0)
    (h : run table v (stepLimit u.1.capacity) (.chunk (u.1.capacity - u.1.used)) u = (.ok none, u')) :
    scan table v u = (.ok (), u') := by
  obtain ⟨s, t⟩ := u
  unfold scan
  refine (Action.bind_of_ok rfl).trans ?_
  simp only [if_neg hused]
  exact Action.bind_of_ok h

theorem scan_unused (hused : u.1.used = 0) : scan table v u = (.ok (), u) := by
  obtain ⟨s, t⟩ := u
  unfold scan
  refine (Action.bind_of_ok rfl).trans ?_
  simp only [if_pos hused]
  rfl

end NativeWalk

/-- **The walk shows the live slots of the frames**: after handlers and link, those of one chunk after another and in
it of one frame after another, each frame's in the order of its descriptor, whatever the visitor stores in them.  No
other word changes, and nothing else of the segment. -/
theorem scan_frameLayout {τ : Type} {table : FrameTable} {s : Segment} {cs : List Chunk} (hs : FrameLayout table s cs)
    (v : Visitor τ) (t : τ) :
    Segment.scan (.native table) v (s, t) =
        (.ok (), showAll v (Chunk.slots (s.capacity - s.used) cs) (s.visitMetadata v t)) ∧
      (∃ slots h, (showAll v (Chunk.slots (s.capacity - s.used) cs) (s.visitMetadata v t)).1 =
        { (s.visitMetadata v t).1 with slots, used_le := h }) ∧
      ∀ i, i ∉ Chunk.slots (s.capacity - s.used) cs →
        (showAll v (Chunk.slots (s.capacity - s.used) cs) (s.visitMetadata v t)).1.wordAt? i = s.wordAt? i := by
  obtain ⟨ws, h, he, -, hwords⟩ := showAll_eq v (Chunk.slots (s.capacity - s.used) cs) (s.visitMetadata v t)
  refine ⟨?_, ⟨ws, h, he⟩, hwords⟩
  have hused : (cs.flatMap Chunk.words).length = s.used := by rw [← hs.words, Segment.length_usedRegion]
  have hle : s.used ≤ s.capacity := s.used_le
  have hcap : (s.visitMetadata v t).1.capacity = s.capacity := rfl
  have hsame : (s.visitMetadata v t).1.used = s.used := rfl
  refine (Action.bind_of_ok rfl).trans ?_
  show NativeWalk.scan table v (s.visitMetadata v t) = _
  by_cases hzero : s.used = 0
  · -- Nothing is used, and there are no chunks.
    have hempty : cs = [] := by
      cases cs with
      | nil => rfl
      | cons c cs =>
        rw [List.flatMap_cons, List.length_append, c.length_words] at hused
        omega
    rw [NativeWalk.scan_unused (hsame.trans hzero), hempty]
    rfl
  · refine NativeWalk.scan_of_run (hsame ▸ hzero) ?_
    rw [hcap, hsame]
    refine NativeWalk.run_chunks (s := s) ⟨rfl, fun _ _ => rfl⟩ hs.chunks (hs.words ▸ s.hasWords_usedRegion)
      (by omega) (fun _ => id) (fun i hi => ⟨hs.inside i hi, hs.apart i hi⟩) ?_
    unfold NativeWalk.stepLimit
    omega

/-- Two chunks, the first of them of two frames; a register that the topmost frame keeps a reference in is saved in the
other frame. -/
theorem scan_frameLayout_savedRegister :
    let inner : FrameDescriptor := ⟨0x1000, 24, [.stack 0, .register 1]⟩
    let outer : FrameDescriptor := ⟨0x2000, 24, []⟩
    let table := [.boundary valueReturn, inner, outer].foldl FrameTable.place (FrameTable.empty 8)
    let callback : Chunk := ⟨some 6, .ofInt (-10), .null, ⟨0x1000⟩,
      [⟨inner, [.ofInt 1, .ofInt 2], ⟨0x2000⟩⟩, ⟨outer, [.ofInt 3, .ofInt 4], ⟨valueReturn⟩⟩], (.null, .null)⟩
    let bottom : Chunk := ⟨none, .null, .null, ⟨valueReturn⟩, [], (.null, .null)⟩
    let s : Segment := ⟨16, none, .zero, .unit, ([callback, bottom].flatMap Chunk.words).reverse, by decide⟩
    FrameLayout table s [callback, bottom] ∧
      Segment.scan (.native table) (.recording fun _ => .null) (s, []) =
        (.ok (), showAll (.recording fun _ => .null) [3, 7] (s.visitMetadata (.recording fun _ => .null) [])) := by
  intro inner outer table callback bottom s
  have hend : table.find? valueReturn = some (.boundary valueReturn) := by decide +kernel
  have hcallback : callback.WellFormed table s :=
    { unsaved := nofun
      saved := fun i hi => ⟨-10, by decide +kernel, by cases hi; decide +kernel⟩
      follow := .frame (by decide +kernel) rfl (by decide)
        (.frame (by decide +kernel) rfl (by decide) (.boundary hend rfl))
      registers := fun _ _ _ _ => rfl }
  have hbottom : bottom.WellFormed table s :=
    { unsaved := fun _ => rfl
      saved := nofun
      follow := .boundary hend rfl
      registers := nofun }
  have hs : FrameLayout table s [callback, bottom] :=
    { words := by decide +kernel
      chunks := List.forall_mem_cons.2 ⟨hcallback, List.forall_mem_singleton.2 hbottom⟩
      inside := by decide +kernel
      apart := by decide +kernel }
  exact ⟨hs, (scan_frameLayout hs _ _).1⟩

end FiberStacks
