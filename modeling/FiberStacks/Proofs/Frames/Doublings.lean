import FiberStacks.Proofs.Frames.Table
import Mathlib.Order.Bounds.Defs

/-!
# The size of the frame table

A table doubles its slots when one more descriptor would fill more than half of them, and it looks whether that is so
before it knows whether the descriptor is a new one.

* `doublings` — how often a table is doubled while descriptors are inserted;
* `length_foldl_insert` — the slots there are after that;
* `Represents.doublings_of_room` — with room for all of them, none is a doubling;
* `Represents.isCrowded_iff` — a table is crowded when exactly half of its slots are taken;
* `Represents.length_le` — **the slots are four for each descriptor at most**, or those there were at first;
* `Represents.doublings_known` — descriptors inserted again double the table once at most;
* `doublings_bounded` — all this of every table built and inserted into.
-/

namespace FiberStacks.FrameTable

variable {t : FrameTable} {a : UInt64} {d : FrameDescriptor} {l ds es : List FrameDescriptor}

/-- **How often a table is doubled** while descriptors are inserted one after another. -/
def doublings (t : FrameTable) : List FrameDescriptor → Nat
  | [] => 0
  | d :: ds => (if t.isCrowded then 1 else 0) + (t.insert d).doublings ds

/-! ### Slots -/

theorem length_place (t : FrameTable) (d : FrameDescriptor) : (t.place d).slots.length = t.slots.length := by
  unfold place
  split
  · rfl
  · exact List.length_set

theorem length_doubled (t : FrameTable) : t.doubled.slots.length = 2 * t.slots.length := by
  have hfold : ∀ (es : List FrameDescriptor) (u : FrameTable), (es.foldl place u).slots.length = u.slots.length := by
    intro es
    induction es with
    | nil => exact fun _ => rfl
    | cons d es ih => exact fun u => (ih _).trans (length_place u d)
  exact (hfold _ _).trans List.length_replicate

theorem length_insert (t : FrameTable) (d : FrameDescriptor) :
    (t.insert d).slots.length = if t.isCrowded then 2 * t.slots.length else t.slots.length := by
  rw [insert, length_place]
  split
  · exact length_doubled t
  · rfl

/-- **The slots after any insertions**: those there were, doubled so often. -/
theorem length_foldl_insert (t : FrameTable) (ds : List FrameDescriptor) :
    (ds.foldl insert t).slots.length = 2 ^ t.doublings ds * t.slots.length := by
  induction ds generalizing t with
  | nil => simp [doublings]
  | cons d ds ih =>
    rw [List.foldl_cons, ih, length_insert, doublings, Nat.pow_add]
    cases t.isCrowded
    · simp
    · simp only [if_true, Nat.pow_one]
      rw [Nat.mul_comm 2 (2 ^ _), Nat.mul_assoc]

theorem Hashed.mask_add_one (ht : t.Hashed) : t.mask + 1 = t.slots.length := Nat.sub_add_cancel ht.length_pos

namespace Represents

/-! ### Descriptors counted -/

theorem count_insert (ht : t.Represents l) (d : FrameDescriptor) :
    (t.insert d).count = if (t.find? d.address).isNone then t.count + 1 else t.count := by
  rw [(ht.insert d).1.count_eq_card, card_addresses_concat, ht.find?_eq, ht.count_eq_card]

theorem count_insert_known (ht : t.Represents l) (hd : (t.find? d.address).isSome) : (t.insert d).count = t.count := by
  rw [ht.count_insert, if_neg (by simpa using Option.isSome_iff_ne_none.1 hd)]

theorem count_le_insert (ht : t.Represents l) (d : FrameDescriptor) :
    t.count ≤ (t.insert d).count ∧ (t.insert d).count ≤ t.count + 1 := by
  rw [ht.count_insert]
  split <;> omega

theorem isSome_find?_insert (ht : t.Represents l) (d : FrameDescriptor) (ha : (t.find? a).isSome) :
    ((t.insert d).find? a).isSome := by
  rw [(ht.insert d).1.find?_eq, latest_concat, ← ht.find?_eq]
  split
  · rfl
  · exact ha

theorem count_pos (ht : t.Represents l) (ha : (t.find? a).isSome) : 0 < t.count := by
  rw [ht.find?_eq, isSome_latest, ← List.mem_toFinset] at ha
  rw [ht.count_eq_card]
  exact Finset.card_pos.2 ⟨a, ha⟩

/-! ### Tables with room -/

/-- **With room for all descriptors** the table is never doubled. -/
theorem doublings_of_room (ht : t.Represents l) (hroom : 2 * (t.count + ds.length) ≤ t.slots.length) :
    t.doublings ds = 0 ∧ ds.foldl FrameTable.insert t = ds.foldl FrameTable.place t := by
  induction ds generalizing t l with
  | nil => exact ⟨rfl, rfl⟩
  | cons d ds ih =>
    rw [List.length_cons] at hroom
    have hcalm : t.isCrowded = false := isCrowded_eq_false_iff.2 (by omega)
    have hinsert : t.insert d = t.place d := by simp [FrameTable.insert, hcalm]
    have hcount := (ht.count_le_insert d).2
    have hroom' : 2 * ((t.insert d).count + ds.length) ≤ (t.insert d).slots.length := by
      rw [hinsert, length_place, ← hinsert]
      omega
    obtain ⟨h0, hfold⟩ := ih (ht.insert d).1 hroom'
    rw [List.foldl_cons, List.foldl_cons, hfold, doublings, h0, hcalm, hinsert]
    exact ⟨rfl, rfl⟩

/-! ### Crowded tables -/

/-- **A table is crowded** when exactly half of its slots are taken. -/
theorem isCrowded_iff (ht : t.Represents l) (heven : 2 ∣ t.slots.length) :
    t.isCrowded = true ↔ t.slots.length = 2 * t.count := by
  have hhalf := ht.half
  rw [isCrowded, decide_eq_true_eq]
  omega

theorem even_insert (heven : 2 ∣ t.slots.length) (d : FrameDescriptor) : 2 ∣ (t.insert d).slots.length := by
  rw [length_insert]
  split <;> omega

theorem length_insert_le (ht : t.Represents l) (heven : 2 ∣ t.slots.length) (d : FrameDescriptor) :
    (t.insert d).slots.length ≤ max t.slots.length (4 * (t.insert d).count) := by
  rw [length_insert]
  split
  · next hc =>
    -- the descriptor need not be a new one
    have hlen := (ht.isCrowded_iff heven).1 hc
    have hcount := (ht.count_le_insert d).1
    omega
  · omega

/-- **The slots are four for each descriptor at most**, or not more than there were at first. -/
theorem length_le {s : Nat} (ht : t.Represents l) (heven : 2 ∣ t.slots.length)
    (hs : t.slots.length ≤ max s (4 * t.count)) :
    (es.foldl FrameTable.insert t).slots.length ≤ max s (4 * (es.foldl FrameTable.insert t).count) := by
  induction es generalizing t l with
  | nil => exact hs
  | cons d es ih =>
    refine ih (ht.insert d).1 (even_insert heven d) ?_
    have hle := ht.length_insert_le heven d
    have hcount := (ht.count_le_insert d).1
    omega

/-! ### Descriptors inserted again -/

theorem doublings_known_of_calm (ht : t.Represents l) (hcalm : t.isCrowded = false)
    (hknown : ∀ d ∈ ds, (t.find? d.address).isSome) : t.doublings ds = 0 := by
  induction ds generalizing t l with
  | nil => rfl
  | cons d ds ih =>
    have hd := hknown d List.mem_cons_self
    have hcalm' : (t.insert d).isCrowded = false := by
      rw [isCrowded_eq_false_iff, ht.count_insert_known hd, length_insert, hcalm]
      exact isCrowded_eq_false_iff.1 hcalm
    rw [doublings, hcalm, ih (ht.insert d).1 hcalm' fun e he =>
      ht.isSome_find?_insert d (hknown e (List.mem_cons_of_mem d he))]
    rfl

/-- **Descriptors inserted again** double the table once at most: after that only a quarter of the slots is taken. -/
theorem doublings_known (ht : t.Represents l) (heven : 2 ∣ t.slots.length)
    (hknown : ∀ d ∈ ds, (t.find? d.address).isSome) : t.doublings ds ≤ 1 := by
  cases hc : t.isCrowded with
  | false => exact (ht.doublings_known_of_calm hc hknown).le.trans (Nat.zero_le 1)
  | true =>
    cases ds with
    | nil => exact Nat.zero_le 1
    | cons d ds =>
      have hd := hknown d List.mem_cons_self
      have hpos := ht.count_pos hd
      have hlen := (ht.isCrowded_iff heven).1 hc
      have hcalm : (t.insert d).isCrowded = false := by
        rw [isCrowded_eq_false_iff, ht.count_insert_known hd, length_insert, hc, if_pos rfl]
        omega
      rw [doublings, (ht.insert d).1.doublings_known_of_calm hcalm fun e he =>
        ht.isSome_find?_insert d (hknown e (List.mem_cons_of_mem d he))]
      split <;> omega

/-- **Filling twice as many slots** doubles nothing, though it is done by insertions. -/
theorem doublings_entries (ht : t.Represents l) :
    (empty (2 * t.slots.length)).doublings t.entries = 0 ∧
      t.entries.foldl FrameTable.insert (empty (2 * t.slots.length)) = t.doubled := by
  obtain ⟨k, hk⟩ := ht.length
  have hempty : (empty (2 * t.slots.length)).Represents [] := by
    rw [hk, Nat.mul_comm, ← Nat.pow_succ]
    exact represents_empty (k + 1)
  refine hempty.doublings_of_room ?_
  have hle := ht.count_le
  have hlen : (empty (2 * t.slots.length)).slots.length = 2 * t.slots.length := List.length_replicate
  have hcount : (empty (2 * t.slots.length)).count = 0 := rfl
  rw [ht.length_entries, hlen, hcount]
  omega

end Represents

/-- **The size of the frame table.**  Building a table of descriptors never doubles it, and its slots are the least
power of two from four on that leaves half of them free if no two descriptors, the two a table always has among them,
are of one address.  Whatever is inserted after that, every doubling counted, the slots are not more than these or four
for each descriptor; from there descriptors of known addresses double the table once at most; and a doubling, done by
insertions, doubles nothing on its way. -/
theorem doublings_bounded (ds es : List FrameDescriptor) :
    (empty (sizeFor (ds.length + 2))).doublings (.boundary valueReturn :: .boundary exceptionReturn :: ds) = 0 ∧
    IsLeast {s | s.isPowerOfTwo ∧ max 4 (2 * (ds.length + 2)) ≤ s} ((build ds).mask + 1) ∧
    ∃ t, es.foldl insert (build ds) = t ∧
      t.mask + 1 = 2 ^ (build ds).doublings es * ((build ds).mask + 1) ∧
      t.mask + 1 ≤ max ((build ds).mask + 1) (4 * t.size) ∧
      (∀ rs : List FrameDescriptor, (∀ r ∈ rs, (t.find? r.address).isSome) → t.doublings rs ≤ 1) ∧
      (empty (2 * t.slots.length)).doublings t.entries = 0 ∧
      t.entries.foldl insert (empty (2 * t.slots.length)) = t.doubled := by
  have hempty := represents_sizeFor (ds.length + 2)
  have hlength : (empty (sizeFor (ds.length + 2))).slots.length = sizeFor (ds.length + 2) := List.length_replicate
  have hle := le_sizeFor (ds.length + 2)
  have hroom : 2 * ((empty (sizeFor (ds.length + 2))).count +
      (.boundary valueReturn :: .boundary exceptionReturn :: ds : List FrameDescriptor).length) ≤
      (empty (sizeFor (ds.length + 2))).slots.length := by
    have hcount : (empty (sizeFor (ds.length + 2))).count = 0 := rfl
    simp only [List.length_cons]
    omega
  have hnone := (hempty.doublings_of_room hroom).1
  have hb := (hempty.foldl_insert (.boundary valueReturn :: .boundary exceptionReturn :: ds)).1
  change (build ds).Represents _ at hb
  have hsize : (build ds).slots.length = sizeFor (ds.length + 2) := by
    rw [build, length_foldl_insert, hnone, Nat.pow_zero, Nat.one_mul, hlength]
  have heven : 2 ∣ (build ds).slots.length := hsize ▸ two_dvd_sizeFor _
  have ht := (hb.foldl_insert es).1
  rw [hb.mask_add_one]
  refine ⟨hnone, ⟨⟨hsize ▸ isPowerOfTwo_sizeFor _, hsize ▸ hle⟩, fun s hs => hsize ▸ sizeFor_le hs.1 hs.2⟩, _, rfl,
    ?_, ?_, fun rs hrs => ?_, ht.doublings_entries⟩
  · rw [ht.mask_add_one, length_foldl_insert]
  · rw [ht.mask_add_one]
    exact hb.length_le heven (le_max_left _ _)
  · refine ht.doublings_known ?_ hrs
    rw [length_foldl_insert]
    exact Nat.dvd_mul_left_of_dvd heven _

/-- The smallest table is half full: inserting what it has once more doubles it, and once is all. -/
theorem doublings_bounded_halfFull :
    (∀ r ∈ [FrameDescriptor.boundary valueReturn, .boundary exceptionReturn],
      ((build []).find? r.address).isSome = true) ∧
      (build []).isCrowded = true ∧ (build []).doublings [.boundary valueReturn, .boundary exceptionReturn] ≤ 1 := by
  have hknown : ∀ r ∈ [FrameDescriptor.boundary valueReturn, .boundary exceptionReturn],
      ((build []).find? r.address).isSome = true := by decide
  obtain ⟨-, -, t, ht, -, -, honce, -⟩ := doublings_bounded [] []
  subst ht
  exact ⟨hknown, by decide, honce _ hknown⟩

end FiberStacks.FrameTable
