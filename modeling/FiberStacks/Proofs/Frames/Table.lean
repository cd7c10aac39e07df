import FiberStacks.Frame.Table
import Mathlib.Algebra.Ring.Nat
import Mathlib.Data.Finset.Card

/-!
# Descriptors by return address

The frame table is a finite map from return addresses to descriptors.  Probing goes round the slots, so it meets a free
slot or the address as long as a slot is free, and a descriptor stays where probing meets its address, whatever is
inserted after it.

* `Meets`, `Inserts` — probing and inserting as they run, without a bound on their steps;
* `Hashed` — the invariant: every descriptor is in the slot that probing meets;
* `Hashed.put`, `Hashed.find?_put` — a descriptor written into the slot met;
* `latest`, `Represents` — the map, and the tables that hold it with half of their slots free;
* `Represents.insert` — **one insertion**, with all its ends;
* `foldl_insert_build` — **any insertions**.
-/

namespace FiberStacks.FrameTable

variable {t : FrameTable} {a : UInt64} {d e : FrameDescriptor} {h i j n k : Nat} {l es : List FrameDescriptor}

/-! ### Probing -/

/-- **Probing ends at a slot**: from `h` on, `i` is the first slot that is free or holds the address. -/
inductive Meets (t : FrameTable) (a : UInt64) : (h i : Nat) → Prop where
  | free {h : Nat} (hs : t.slots[h]? = some none) : Meets t a h h
  | held {h : Nat} {d : FrameDescriptor} (hs : t.slots[h]? = some (some d)) (ha : d.address = a) : Meets t a h h
  | next {h i : Nat} {d : FrameDescriptor} (hs : t.slots[h]? = some (some d)) (ha : d.address ≠ a)
      (hm : Meets t a ((h + 1) &&& t.mask) i) : Meets t a h i

theorem meets_of_probe (hp : t.probe a n h = some i) : t.Meets a h i := by
  induction n generalizing h with
  | zero => simp [probe] at hp
  | succ n ih =>
    unfold probe at hp
    split at hp
    · cases hp
    · next hs => exact Option.some.inj hp ▸ .free hs
    · next d hs =>
      split at hp
      · next ha => exact Option.some.inj hp ▸ .held hs ha
      · next ha => exact .next hs ha (ih hp)

theorem lt_of_probe (hp : t.probe a n h = some i) : h < t.slots.length := by
  refine Nat.lt_of_not_le fun hle => ?_
  cases n <;> simp [probe, List.getElem?_eq_none hle] at hp

/-- What is in the slot met. -/
theorem Meets.slot (hm : t.Meets a h i) :
    t.slots[i]? = some none ∨ ∃ d, t.slots[i]? = some (some d) ∧ d.address = a := by
  induction hm with
  | free hs => exact .inl hs
  | held hs ha => exact .inr ⟨_, hs, ha⟩
  | next _ _ _ ih => exact ih

theorem Meets.lt (hm : t.Meets a h i) : i < t.slots.length := by
  rcases hm.slot with hs | ⟨_, hs, -⟩ <;> exact (List.getElem?_eq_some_iff.1 hs).1

theorem taken_of_probe_eq_none (hk : t.slots.length = 2 ^ k) (hh : h < 2 ^ k) (hp : t.probe a n h = none) :
    ∀ j < n, ∃ d, t.slots[(h + j) % 2 ^ k]? = some (some d) := by
  induction n generalizing h with
  | zero => exact fun j hj => absurd hj (Nat.not_lt_zero j)
  | succ n ih =>
    have hmask : (h + 1) &&& t.mask = (h + 1) % 2 ^ k := by
      rw [mask, hk, Nat.and_two_pow_sub_one_eq_mod]
    unfold probe at hp
    split at hp
    · next hs =>
      rw [List.getElem?_eq_none_iff] at hs
      omega
    · cases hp
    · next d hs =>
      split at hp
      · cases hp
      · rw [hmask] at hp
        have hrest := ih (Nat.mod_lt _ (Nat.two_pow_pos k)) hp
        intro j hj
        cases j with
        | zero => exact ⟨d, by rwa [Nat.add_zero, Nat.mod_eq_of_lt hh]⟩
        | succ j =>
          have hstep := hrest j (Nat.lt_of_succ_lt_succ hj)
          rwa [Nat.mod_add_mod, Nat.add_assoc, Nat.add_comm 1 j] at hstep

theorem home_lt (hk : t.slots.length = 2 ^ k) (a : UInt64) : home a t.mask < 2 ^ k := by
  rw [home, mask, hk, Nat.and_two_pow_sub_one_eq_mod]
  exact Nat.mod_lt _ (Nat.two_pow_pos k)

/-! ### The invariant -/

/-- **Every descriptor is where probing meets its address**, in a table that counts them. -/
structure Hashed (t : FrameTable) : Prop where
  length : ∃ k, t.slots.length = 2 ^ k
  count_eq : t.count = t.slots.countP Option.isSome
  slotOf? : ∀ (i : Nat) d, t.slots[i]? = some (some d) → t.slotOf? d.address = some i

theorem hashed_empty (k : Nat) : (empty (2 ^ k)).Hashed where
  length := ⟨k, by simp [empty]⟩
  count_eq := by simp [empty, List.countP_replicate]
  slotOf? i d hs := by
    have hmem := List.mem_of_getElem? hs
    simp [empty] at hmem

theorem mem_entries : d ∈ t.entries ↔ ∃ i : Nat, t.slots[i]? = some (some d) := by
  rw [entries, List.mem_filterMap]
  constructor
  · rintro ⟨_, hmem, rfl⟩
    exact List.getElem?_of_mem hmem
  · rintro ⟨i, hs⟩
    exact ⟨_, List.mem_of_getElem? hs, rfl⟩

namespace Hashed

theorem length_entries (ht : t.Hashed) : t.entries.length = t.count := by
  rw [entries, List.length_filterMap_eq_countP, ht.count_eq]
  rfl

theorem length_pos (ht : t.Hashed) : 0 < t.slots.length := by
  obtain ⟨k, hk⟩ := ht.length
  exact hk ▸ Nat.two_pow_pos k

theorem count_le (ht : t.Hashed) : t.count ≤ t.slots.length := ht.count_eq ▸ List.countP_le_length

/-- **Probing ends** where a slot is free. -/
theorem exists_slotOf? (ht : t.Hashed) (hfree : t.count < t.slots.length) (a : UInt64) : ∃ i, t.slotOf? a = some i := by
  obtain ⟨k, hk⟩ := ht.length
  refine Option.isSome_iff_exists.1 (Option.isSome_iff_ne_none.2 fun hnone => ?_)
  have hhome := home_lt hk a
  have htaken := taken_of_probe_eq_none hk hhome hnone
  -- probing in vain has been to every slot
  have hall : ∀ x ∈ t.slots, x.isSome := by
    intro x hx
    obtain ⟨i, hi⟩ := List.getElem?_of_mem hx
    have hlt : i < 2 ^ k := hk ▸ (List.getElem?_eq_some_iff.1 hi).1
    have hround : (home a t.mask + (i + 2 ^ k - home a t.mask) % 2 ^ k) % 2 ^ k = i := by
      rw [Nat.add_mod_mod, Nat.add_sub_cancel' (by omega), Nat.add_mod_right, Nat.mod_eq_of_lt hlt]
    have hless : (i + 2 ^ k - home a t.mask) % 2 ^ k < t.slots.length := by
      rw [hk]
      exact Nat.mod_lt _ (Nat.two_pow_pos k)
    obtain ⟨d, hd⟩ := htaken _ hless
    rw [hround] at hd
    obtain rfl := Option.some.inj (hi.symm.trans hd)
    rfl
  rw [ht.count_eq, List.countP_eq_length.2 hall] at hfree
  exact Nat.lt_irrefl _ hfree

theorem meets (ht : t.Hashed) (hfree : t.count < t.slots.length) (a : UInt64) :
    ∃ i, t.Meets a (home a t.mask) i := by
  obtain ⟨i, hi⟩ := ht.exists_slotOf? hfree a
  exact ⟨i, meets_of_probe hi⟩

theorem find?_eq_some_iff (ht : t.Hashed) : t.find? a = some d ↔ d ∈ t.entries ∧ d.address = a := by
  rw [mem_entries, find?, Option.bind_eq_some_iff]
  constructor
  · rintro ⟨i, hi, hd⟩
    have hs := Option.join_eq_some_iff.1 hd
    refine ⟨⟨i, hs⟩, ?_⟩
    rcases (meets_of_probe hi).slot with hfree | ⟨d', hd', ha⟩
    · rw [hs] at hfree
      cases hfree
    · obtain rfl := Option.some.inj (Option.some.inj (hs.symm.trans hd'))
      exact ha
  · rintro ⟨⟨i, hs⟩, rfl⟩
    exact ⟨i, ht.slotOf? i d hs, Option.join_eq_some_iff.2 hs⟩

end Hashed

/-! ### Writing into a slot -/

def put (t : FrameTable) (i : Nat) (d : FrameDescriptor) : FrameTable :=
  { slots := t.slots.set i (some d), count := if t.slots[i]?.join.isNone then t.count + 1 else t.count }

theorem place_of_slotOf? (hi : t.slotOf? d.address = some i) : t.place d = t.put i d := by
  rw [place, hi]
  rfl

@[simp] theorem length_put : (t.put i d).slots.length = t.slots.length := List.length_set

theorem mask_put : (t.put i d).mask = t.mask := by
  rw [mask, mask, length_put]

theorem probe_put_of_ne (hi : t.slots[i]? = some none ∨ ∃ e, t.slots[i]? = some (some e) ∧ e.address = d.address)
    (ha : a ≠ d.address) (he : t.slots[j]? = some (some e)) (hp : t.probe a n h = some j) :
    (t.put i d).probe a n h = some j := by
  induction n generalizing h with
  | zero => simp [probe] at hp
  | succ n ih =>
    have hlt := lt_of_probe hp
    unfold probe at hp ⊢
    rw [mask_put, put, List.getElem?_set]
    by_cases hhi : i = h
    · subst hhi
      rw [if_pos rfl, if_pos hlt]
      rcases hi with hi | ⟨e', hi, he'⟩
      · -- a free slot is an end, and what is met is taken
        rw [hi] at hp
        obtain rfl := Option.some.inj hp
        rw [hi] at he
        cases he
      · rw [hi] at hp
        simp only [he', if_neg (Ne.symm ha)] at hp ⊢
        exact ih hp
    · rw [if_neg hhi]
      split at hp
      · cases hp
      · exact hp
      · next d' _ =>
        by_cases hd : d'.address = a
        · rwa [if_pos hd] at hp ⊢
        · rw [if_neg hd] at hp ⊢
          exact ih hp

theorem probe_put_self (hp : t.probe d.address n h = some i) : (t.put i d).probe d.address n h = some i := by
  induction n generalizing h with
  | zero => simp [probe] at hp
  | succ n ih =>
    have hlt := lt_of_probe hp
    unfold probe at hp ⊢
    rw [mask_put, put, List.getElem?_set]
    by_cases hih : i = h
    · subst hih
      rw [if_pos rfl, if_pos hlt]
      exact if_pos rfl
    · rw [if_neg hih]
      split at hp
      · cases hp
      · exact absurd (Option.some.inj hp).symm hih
      · next d' _ =>
        by_cases hd : d'.address = d.address
        · rw [if_pos hd] at hp
          exact absurd (Option.some.inj hp).symm hih
        · rw [if_neg hd] at hp ⊢
          exact ih hp

theorem slots_put (hi : t.slotOf? d.address = some i) :
    (t.put i d).slots[j]? = if j = i then some (some d) else t.slots[j]? := by
  have hlt := (meets_of_probe hi).lt
  rw [put, List.getElem?_set]
  by_cases hij : i = j
  · rw [if_pos hij, if_pos (hij ▸ hlt), if_pos hij.symm]
  · rw [if_neg hij, if_neg (Ne.symm hij)]

theorem count_put (hi : t.slotOf? d.address = some i) :
    (t.put i d).count = if (t.find? d.address).isNone then t.count + 1 else t.count := by
  rw [find?, hi, Option.bind_some]
  rfl

namespace Hashed

/-- **A descriptor written into the slot met** keeps the invariant. -/
theorem put (ht : t.Hashed) (hi : t.slotOf? d.address = some i) : (t.put i d).Hashed where
  length := by
    rw [length_put]
    exact ht.length
  count_eq := by
    have hlt := (meets_of_probe hi).lt
    rw [FrameTable.put, List.countP_set hlt, ← ht.count_eq]
    rcases (meets_of_probe hi).slot with hs | ⟨e, hs, -⟩
    · have hget : t.slots[i] = none := (List.getElem?_eq_some_iff.1 hs).2
      simp [hs, hget]
    · have hget : t.slots[i] = some e := (List.getElem?_eq_some_iff.1 hs).2
      have hpos : 0 < t.count := by
        rw [ht.count_eq]
        exact List.countP_pos_iff.2 ⟨some e, List.mem_of_getElem? hs, rfl⟩
      simp [hs, hget, Nat.sub_add_cancel hpos]
  slotOf? j e he := by
    rw [slots_put hi] at he
    unfold FrameTable.slotOf?
    rw [length_put, mask_put]
    by_cases hj : j = i
    · rw [if_pos hj] at he
      obtain rfl := Option.some.inj (Option.some.inj he)
      exact hj.symm ▸ probe_put_self hi
    · rw [if_neg hj] at he
      have hmet := ht.slotOf? j e he
      refine probe_put_of_ne (meets_of_probe hi).slot (fun ha => hj ?_) he hmet
      exact Option.some.inj (hmet.symm.trans (ha ▸ hi))

/-- **What is stored after it**: the descriptor, and those there were under other addresses. -/
theorem mem_entries_put (ht : t.Hashed) (hi : t.slotOf? d.address = some i) :
    e ∈ (t.put i d).entries ↔ e = d ∨ e ∈ t.entries ∧ d.address ≠ e.address := by
  rw [mem_entries, mem_entries]
  simp only [slots_put hi]
  constructor
  · rintro ⟨j, hj⟩
    by_cases hji : j = i
    · rw [if_pos hji] at hj
      exact .inl (Option.some.inj (Option.some.inj hj)).symm
    · -- another slot than the one met
      rw [if_neg hji] at hj
      refine .inr ⟨⟨j, hj⟩, fun hde => hji ?_⟩
      have hmet := ht.slotOf? j e hj
      rw [← hde, hi] at hmet
      exact (Option.some.inj hmet).symm
  · rintro (rfl | ⟨⟨j, hj⟩, hne⟩)
    · exact ⟨i, if_pos rfl⟩
    · have hji : j ≠ i := by
        rintro rfl
        rcases (meets_of_probe hi).slot with hs | ⟨d', hs, hd'⟩
        · rw [hj] at hs
          cases hs
        · obtain rfl := Option.some.inj (Option.some.inj (hj.symm.trans hs))
          exact hne hd'.symm
      exact ⟨j, (if_neg hji).trans hj⟩

/-- **What is found after it**: the descriptor under its address, and all else as before. -/
theorem find?_put (ht : t.Hashed) (hi : t.slotOf? d.address = some i) (a : UInt64) :
    (t.put i d).find? a = if d.address = a then some d else t.find? a := by
  refine Option.ext fun e => ?_
  rw [(ht.put hi).find?_eq_some_iff, ht.mem_entries_put hi]
  by_cases ha : d.address = a
  · rw [if_pos ha]
    constructor
    · rintro ⟨rfl | ⟨-, hne⟩, he⟩
      · rfl
      · exact absurd (ha.trans he.symm) hne
    · intro he
      obtain rfl := Option.some.inj he
      exact ⟨.inl rfl, ha⟩
  · rw [if_neg ha, ht.find?_eq_some_iff]
    constructor
    · rintro ⟨rfl | ⟨hmem, -⟩, he⟩
      · exact absurd he ha
      · exact ⟨hmem, he⟩
    · rintro ⟨hmem, rfl⟩
      exact ⟨.inr ⟨hmem, ha⟩, rfl⟩

end Hashed

/-! ### The map -/

/-- The descriptor of a list that has an address, the last one if there are several. -/
def latest (l : List FrameDescriptor) (a : UInt64) : Option FrameDescriptor := l.reverse.find? fun d => d.address = a

theorem latest_concat (l : List FrameDescriptor) (d : FrameDescriptor) (a : UInt64) :
    latest (l ++ [d]) a = if d.address = a then some d else latest l a := by
  rw [latest, List.reverse_append, List.reverse_singleton, List.singleton_append, List.find?_cons]
  by_cases ha : d.address = a <;> simp [ha, latest]

theorem mem_of_latest (hd : latest l a = some d) : d ∈ l ∧ d.address = a :=
  ⟨List.mem_reverse.1 (List.mem_of_find?_eq_some hd), by simpa using List.find?_some hd⟩

theorem isSome_latest : (latest l a).isSome ↔ a ∈ l.map FrameDescriptor.address := by
  simp [latest]

theorem card_addresses_concat (l : List FrameDescriptor) (d : FrameDescriptor) :
    ((l ++ [d]).map FrameDescriptor.address).toFinset.card =
      if (latest l d.address).isNone then (l.map FrameDescriptor.address).toFinset.card + 1
      else (l.map FrameDescriptor.address).toFinset.card := by
  have hinsert : ((l ++ [d]).map FrameDescriptor.address).toFinset =
      Insert.insert d.address (l.map FrameDescriptor.address).toFinset := by
    ext a
    simp
  rw [hinsert, Finset.card_insert_eq_ite]
  simp only [List.mem_toFinset, ← isSome_latest]
  cases latest l d.address <;> rfl

/-- **A table that holds a list of descriptors**, the last one of each address, in half of its slots at most. -/
structure Represents (t : FrameTable) (l : List FrameDescriptor) : Prop extends Hashed t where
  find?_eq : ∀ a, t.find? a = latest l a
  count_eq_card : t.count = (l.map FrameDescriptor.address).toFinset.card
  half : 2 * t.count ≤ t.slots.length

theorem represents_empty (k : Nat) : (empty (2 ^ k)).Represents [] where
  toHashed := hashed_empty k
  find?_eq a := by
    refine Option.eq_none_iff_forall_ne_some.2 fun d hd => ?_
    obtain ⟨hmem, -⟩ := (hashed_empty k).find?_eq_some_iff.1 hd
    simp [entries, empty] at hmem
  count_eq_card := rfl
  half := Nat.zero_le _

theorem represents_sizeFor (n : Nat) : (empty (sizeFor n)).Represents [] := by
  obtain ⟨k, hk⟩ := isPowerOfTwo_sizeFor n
  exact hk ▸ represents_empty k

theorem Hashed.latest_entries (ht : t.Hashed) (a : UInt64) : latest t.entries a = t.find? a := by
  cases hl : latest t.entries a with
  | some d => exact (ht.find?_eq_some_iff.2 (mem_of_latest hl)).symm
  | none =>
    refine (Option.eq_none_iff_forall_ne_some.2 fun d hd => ?_).symm
    obtain ⟨hmem, ha⟩ := ht.find?_eq_some_iff.1 hd
    have hsome := isSome_latest.2 (List.mem_map.2 ⟨d, hmem, ha⟩)
    rw [hl] at hsome
    cases hsome

/-! ### Inserting -/

/-- **Insertions end**: descriptors are inserted one after another, each into the slot that probing ends at.  Into a
table that is too full all descriptors of the table are inserted anew first, in twice as many slots. -/
inductive Inserts : FrameTable → List FrameDescriptor → FrameTable → Prop where
  | nil {t : FrameTable} : Inserts t [] t
  | fits {t v : FrameTable} {d : FrameDescriptor} {ds : List FrameDescriptor} {i : Nat} (hc : t.isCrowded = false)
      (hm : t.Meets d.address (home d.address t.mask) i) (hds : Inserts (t.put i d) ds v) : Inserts t (d :: ds) v
  | grows {t u v : FrameTable} {d : FrameDescriptor} {ds : List FrameDescriptor} {i : Nat} (hc : t.isCrowded = true)
      (hu : Inserts (empty (2 * t.slots.length)) t.entries u) (hm : u.Meets d.address (home d.address u.mask) i)
      (hds : Inserts (u.put i d) ds v) : Inserts t (d :: ds) v

theorem isCrowded_eq_false_iff : t.isCrowded = false ↔ 2 * (t.count + 1) ≤ t.slots.length := by
  rw [isCrowded, decide_eq_false_iff_not, Nat.not_lt]

namespace Represents

/-- A descriptor put into a table that is not crowded. -/
theorem place (ht : t.Represents l) (hroom : 2 * (t.count + 1) ≤ t.slots.length) (d : FrameDescriptor) :
    ∃ i, t.Meets d.address (home d.address t.mask) i ∧ t.place d = t.put i d ∧ (t.put i d).Represents (l ++ [d]) ∧
      (t.put i d).count ≤ t.count + 1 := by
  obtain ⟨i, hi⟩ := ht.exists_slotOf? (by omega) d.address
  have hcount := count_put hi
  have hle : (t.put i d).count ≤ t.count + 1 := by
    rw [hcount]
    split <;> omega
  refine ⟨i, meets_of_probe hi, place_of_slotOf? hi, ⟨ht.put hi, fun a => ?_, ?_, ?_⟩, hle⟩
  · rw [ht.find?_put hi, latest_concat, ht.find?_eq]
  · rw [hcount, ht.find?_eq, ht.count_eq_card, card_addresses_concat]
  · rw [length_put]
    omega

theorem foldl_place (ht : t.Represents l) (hroom : 2 * (t.count + es.length) ≤ t.slots.length) :
    (es.foldl FrameTable.place t).Represents (l ++ es) ∧ Inserts t es (es.foldl FrameTable.place t) ∧
      (es.foldl FrameTable.place t).slots.length = t.slots.length := by
  induction es generalizing t l with
  | nil => exact ⟨(List.append_nil l).symm ▸ ht, .nil, rfl⟩
  | cons d es ih =>
    rw [List.length_cons] at hroom
    have hroom' : 2 * (t.count + 1) ≤ t.slots.length := by omega
    obtain ⟨i, hm, hplace, hput, hcount⟩ := ht.place hroom' d
    obtain ⟨hr, hins, hlen⟩ := ih hput (by rw [length_put]; omega)
    rw [List.foldl_cons, hplace]
    refine ⟨by simpa using hr, .fits (isCrowded_eq_false_iff.2 hroom') hm hins, ?_⟩
    rw [hlen, length_put]

/-- **The same descriptors in twice as many slots.** -/
theorem doubled (ht : t.Represents l) :
    t.doubled.Represents l ∧ Inserts (empty (2 * t.slots.length)) t.entries t.doubled ∧
      t.doubled.count = t.count ∧ t.doubled.slots.length = 2 * t.slots.length := by
  obtain ⟨k, hk⟩ := ht.length
  have hsize : 2 * t.slots.length = 2 ^ (k + 1) := by rw [hk, Nat.pow_succ, Nat.mul_comm]
  have hlength : (empty (2 * t.slots.length)).slots.length = 2 * t.slots.length := List.length_replicate
  have hroom : 2 * (0 + t.entries.length) ≤ (empty (2 * t.slots.length)).slots.length := by
    have hle := ht.count_le
    rw [hlength, ht.length_entries]
    omega
  obtain ⟨hr, hins, hlen⟩ := foldl_place (l := []) (hsize ▸ represents_empty (k + 1)) hroom
  have hfind : ∀ a, latest t.entries a = latest l a := fun a => (ht.latest_entries a).trans (ht.find?_eq a)
  have haddresses : (t.entries.map FrameDescriptor.address).toFinset = (l.map FrameDescriptor.address).toFinset := by
    ext a
    rw [List.mem_toFinset, List.mem_toFinset, ← isSome_latest, ← isSome_latest, hfind]
  have hcount : t.doubled.count = t.count := by
    rw [ht.count_eq_card, ← haddresses]
    exact hr.count_eq_card
  refine ⟨⟨hr.toHashed, fun a => (hr.find?_eq a).trans (hfind a), ?_, ?_⟩, hins, hcount, hlen.trans hlength⟩
  · rw [hcount, ht.count_eq_card]
  · exact hr.half

/-- **One insertion**: it ends, and the table holds the descriptor on top of the others. -/
theorem insert (ht : t.Represents l) (d : FrameDescriptor) :
    (t.insert d).Represents (l ++ [d]) ∧ ∀ ds v, Inserts (t.insert d) ds v → Inserts t (d :: ds) v := by
  unfold FrameTable.insert
  cases hc : t.isCrowded with
  | false =>
    rw [if_neg Bool.false_ne_true]
    obtain ⟨i, hm, hplace, hput, -⟩ := ht.place (isCrowded_eq_false_iff.1 hc) d
    rw [hplace]
    exact ⟨hput, fun ds v hds => .fits hc hm hds⟩
  | true =>
    rw [if_pos rfl]
    obtain ⟨hu, hins, hcount, hlen⟩ := ht.doubled
    have hroom : 2 * (t.doubled.count + 1) ≤ t.doubled.slots.length := by
      have hhalf := ht.half
      have hpos := ht.length_pos
      omega
    obtain ⟨i, hm, hplace, hput, -⟩ := hu.place hroom d
    rw [hplace]
    exact ⟨hput, fun ds v hds => .grows hc hins hm hds⟩

theorem foldl_insert (ht : t.Represents l) (es : List FrameDescriptor) :
    (es.foldl FrameTable.insert t).Represents (l ++ es) ∧ Inserts t es (es.foldl FrameTable.insert t) := by
  induction es generalizing t l with
  | nil => exact ⟨(List.append_nil l).symm ▸ ht, .nil⟩
  | cons d es ih =>
    obtain ⟨hd, hins⟩ := ht.insert d
    obtain ⟨hr, hes⟩ := ih hd
    exact ⟨by simpa using hr, hins _ _ hes⟩

end Represents

theorem represents_foldl_insert_build (ds es : List FrameDescriptor) :
    (es.foldl insert (build ds)).Represents (.boundary valueReturn :: .boundary exceptionReturn :: (ds ++ es)) := by
  rw [build, ← List.foldl_append]
  exact ((represents_sizeFor (ds.length + 2)).foldl_insert
    (.boundary valueReturn :: .boundary exceptionReturn :: (ds ++ es))).1

/-- **The frame table is a finite map** from return addresses to descriptors, whatever is inserted after it was built:
every insertion ends, and every search does; the number of slots is a power of two and twice the size at least; what is
found under an address is the descriptor inserted last, the two addresses a fiber ends at being the first ones; and the
size is the number of addresses. -/
theorem foldl_insert_build (ds es : List FrameDescriptor) :
    ∃ t l, es.foldl insert (build ds) = t ∧
      .boundary valueReturn :: .boundary exceptionReturn :: (ds ++ es) = l ∧
      Inserts (empty (sizeFor (ds.length + 2))) l t ∧ (∃ k, t.slots.length = 2 ^ k) ∧
      2 * t.size ≤ t.slots.length ∧
      (∀ a, (∃ i, t.Meets a (home a t.mask) i) ∧ t.find? a = latest l a) ∧
      t.size = (l.map FrameDescriptor.address).toFinset.card := by
  have hempty := represents_sizeFor (ds.length + 2)
  obtain ⟨ht, hins⟩ := hempty.foldl_insert (.boundary valueReturn :: .boundary exceptionReturn :: (ds ++ es))
  refine ⟨_, _, ?_, rfl, hins, ht.length, ht.half, fun a => ⟨ht.meets ?_ a, ht.find?_eq a⟩, ht.count_eq_card⟩
  · rw [build, ← List.foldl_append]
    rfl
  · have hhalf := ht.half
    have hpos := ht.length_pos
    omega

end FiberStacks.FrameTable
