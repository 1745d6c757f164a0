import PrunedCosine.SlotSet
import Mathlib.Data.List.Sort

/-! The members of a slot set. Every operation is described by what it does to `contains`,
and the list of a set is the ascending list of its members. -/

namespace PrunedCosine.SlotSet

theorem bit_toBitVec (place : Nat) (small : place < 64) :
    (bit place).toBitVec = BitVec.twoPow 64 place := by
  rw [BitVec.twoPow_eq]
  simp [bit, UInt64.toBitVec_shiftLeft, Nat.mod_eq_of_lt small]

theorem wordContains_eq_getLsbD (word : UInt64) (place : Nat) (small : place < 64) :
    wordContains word place = word.toBitVec.getLsbD place := by
  have masked : (word &&& bit place).toBitVec =
      if word.toBitVec.getLsbD place then BitVec.twoPow 64 place else 0#64 := by
    rw [UInt64.toBitVec_and, bit_toBitVec place small, BitVec.and_twoPow]
  have nonzero : BitVec.twoPow 64 place ≠ 0#64 := by
    intro same
    have bits := congrArg (fun bits => bits.getLsbD place) same
    simp [small] at bits
  rw [wordContains, Bool.eq_iff_iff, bne_iff_ne, ne_eq, ← UInt64.toBitVec_inj, masked]
  by_cases found : word.toBitVec.getLsbD place <;> simp [found, nonzero]

theorem wordContains_zero (place : Nat) : wordContains 0 place = false := by
  simp [wordContains]

theorem wordContains_or (first second : UInt64) (place : Nat) (small : place < 64) :
    wordContains (first ||| second) place =
      (wordContains first place || wordContains second place) := by
  simp only [wordContains_eq_getLsbD _ _ small, UInt64.toBitVec_or, BitVec.getLsbD_or]

theorem wordContains_bit (other place : Nat) (otherSmall : other < 64) (small : place < 64) :
    wordContains (bit other) place = decide (place = other) := by
  rw [wordContains_eq_getLsbD _ _ small, bit_toBitVec other otherSmall]
  simp [BitVec.getLsbD_twoPow, otherSmall, eq_comm]

section Lowest

/-- A number whose lowest bit stands at `place` is an odd multiple of the value of that bit. -/
theorem exists_odd_multiple {number place : Nat} (lowest : number.testBit place)
    (below : ∀ other < place, number.testBit other = false) :
    ∃ higher, number = Nat.pow 2 (place + 1) * higher + Nat.pow 2 place := by
  have low : number % 2 ^ place = 0 := by
    apply Nat.eq_of_testBit_eq
    intro other
    rw [Nat.testBit_mod_two_pow, Nat.zero_testBit]
    by_cases small : other < place <;> simp [small, below]
  have odd : number / 2 ^ place % 2 = 1 := by
    rw [Nat.testBit_eq_decide_div_mod_eq] at lowest
    exact of_decide_eq_true lowest
  have whole := Nat.div_add_mod number (2 ^ place)
  rw [low, ← Nat.div_add_mod (number / 2 ^ place) 2, odd] at whole
  refine ⟨number / 2 ^ place / 2, ?_⟩
  change number = 2 ^ (place + 1) * _ + 2 ^ place
  rw [Nat.pow_succ]
  grind

/-- Taking one away turns the lowest bit into bits below it, and leaves those above it as they
are. -/
theorem testBit_and_sub_one {number place : Nat} (lowest : number.testBit place)
    (below : ∀ other < place, number.testBit other = false) (other : Nat) :
    (number &&& (number - 1)).testBit other =
      (number.testBit other && decide (other ≠ place)) := by
  obtain ⟨higher, multiple⟩ := exists_odd_multiple lowest below
  obtain rfl : number = 2 ^ (place + 1) * higher + 2 ^ place := multiple
  have positive : 0 < 2 ^ place := Nat.two_pow_pos place
  have double : 2 ^ (place + 1) = 2 * 2 ^ place := Nat.pow_succ'
  have taken : 2 ^ (place + 1) * higher + 2 ^ place - 1 =
      2 ^ (place + 1) * higher + (2 ^ place - 1) := Nat.add_sub_assoc positive _
  rw [Nat.testBit_and, taken, Nat.testBit_two_pow_mul_add _ (by omega),
    Nat.testBit_two_pow_mul_add _ (by omega)]
  by_cases high : place < other
  · rw [if_neg (by omega), if_neg (by omega), Bool.and_self, decide_eq_true (by omega),
      Bool.and_true]
  · rw [if_pos (by omega), if_pos (by omega), Nat.testBit_two_pow, Nat.testBit_two_pow_sub_one]
    by_cases same : place = other <;> simp [same]

theorem wordContains_eq_testBit {word : UInt64} {place : Nat} (small : place < 64) :
    wordContains word place = word.toNat.testBit place :=
  wordContains_eq_getLsbD word place small

theorem eq_zero_of_wordContains {word : UInt64}
    (clear : ∀ place < 64, wordContains word place = false) : word = 0 := by
  apply UInt64.toBitVec_inj.mp
  apply BitVec.eq_of_getLsbD_eq
  intro place small
  rw [← wordContains_eq_getLsbD _ _ small, clear place small]
  simp

theorem lowestPlace_spec {word : UInt64} (nonzero : word ≠ 0) :
    lowestPlace word < 64 ∧ wordContains word (lowestPlace word) ∧
      ∀ other < lowestPlace word, wordContains word other = false := by
  rw [lowestPlace]
  cases found : (List.range 64).find? (wordContains word) with
  | none =>
    refine absurd (eq_zero_of_wordContains fun place small => ?_) nonzero
    simpa using List.find?_eq_none.mp found place (List.mem_range.mpr small)
  | some place =>
    obtain ⟨contained, inside, below⟩ := List.find?_range_eq_some.mp found
    exact ⟨List.mem_range.mp inside, contained, fun other small => by simpa using below other small⟩

theorem wordContains_and_sub_one {word : UInt64} (nonzero : word ≠ 0) {place : Nat}
    (small : place < 64) :
    wordContains (word &&& (word - 1)) place =
      (wordContains word place && decide (place ≠ lowestPlace word)) := by
  obtain ⟨inside, contained, below⟩ := lowestPlace_spec nonzero
  have positive : (1 : UInt64) ≤ word := by
    rw [UInt64.le_iff_toNat_le]
    exact Nat.one_le_iff_ne_zero.mpr fun zero => nonzero (UInt64.toNat_inj.mp zero)
  have taken : (word - 1).toNat = word.toNat - 1 := UInt64.toNat_sub_of_le word 1 positive
  rw [wordContains_eq_testBit small, wordContains_eq_testBit small, UInt64.toNat_and, taken]
  apply testBit_and_sub_one
  · rwa [← wordContains_eq_testBit inside]
  · intro other lower
    rw [← wordContains_eq_testBit (lower.trans inside)]
    exact below other lower

abbrev places (word : UInt64) : List Nat := (List.range 64).filter (wordContains word)

theorem places_ascending (word : UInt64) : (places word).Pairwise (· < ·) :=
  List.pairwise_lt_range.sublist List.filter_sublist

theorem places_eq_cons {word : UInt64} (nonzero : word ≠ 0) :
    places word = lowestPlace word :: places (word &&& (word - 1)) := by
  obtain ⟨inside, contained, below⟩ := lowestPlace_spec nonzero
  apply (places_ascending word).eq_of_mem_iff
  · refine List.pairwise_cons.mpr ⟨fun other later => ?_, places_ascending _⟩
    obtain ⟨member, found⟩ := List.mem_filter.mp later
    rw [wordContains_and_sub_one nonzero (List.mem_range.mp member), Bool.and_eq_true,
      decide_eq_true_eq] at found
    by_contra least
    have lower : other < lowestPlace word := by omega
    rw [below other lower] at found
    exact Bool.false_ne_true found.1
  · intro place
    rw [List.mem_cons, List.mem_filter, List.mem_filter, List.mem_range]
    constructor
    · intro member
      by_cases lowest : place = lowestPlace word
      · exact Or.inl lowest
      · rw [wordContains_and_sub_one nonzero member.1, member.2, decide_eq_true lowest]
        exact Or.inr ⟨member.1, rfl⟩
    · intro member
      rcases member with rfl | ⟨small, found⟩
      · exact ⟨inside, contained⟩
      · rw [wordContains_and_sub_one nonzero small, Bool.and_eq_true] at found
        exact ⟨small, found.1⟩

/-- Taking the lowest bit again and again finds all bits of a word that has no more of them. -/
theorem lowestPlaces_eq {count : Nat} {word : UInt64} (enough : (places word).length ≤ count) :
    lowestPlaces count word = places word := by
  induction count generalizing word with
  | zero => exact (List.eq_nil_of_length_eq_zero (Nat.le_zero.mp enough)).symm
  | succ count ih =>
    rw [lowestPlaces]
    split
    · rename_i zero
      rw [eq_of_beq zero]
      simp [places, wordContains_zero]
    · rename_i nonzero
      have other : word ≠ 0 := by simpa using nonzero
      rw [places_eq_cons other, List.length_cons] at enough
      rw [places_eq_cons other, ih (Nat.le_of_succ_le_succ enough)]

theorem wordPlaces_eq (word : UInt64) : wordPlaces word = places word :=
  lowestPlaces_eq ((List.length_filter_le _ _).trans_eq List.length_range)

theorem wordSize_eq (word : UInt64) : wordSize word = (wordPlaces word).length := by
  rw [wordSize, wordPlaces_eq, List.countP_eq_length_filter]

end Lowest

theorem contains_eq (set : SlotSet) (index : Nat) :
    set.contains index = wordContains (set.words.getD (index / 64) 0) (index % 64) := by
  rw [contains, Array.getD_eq_getD_getElem?]
  cases set.words[index / 64]? with
  | none => simp [wordContains_zero]
  | some word => rfl

theorem grown_getD (words : Array UInt64) (size place : Nat) :
    (grown words size).getD place 0 = words.getD place 0 := by
  unfold grown
  split
  · rfl
  · simp only [Array.getD_eq_getD_getElem?, Array.getElem?_append]
    split
    · rfl
    · rename_i beyond
      rw [Array.getElem?_eq_none (by omega : words.size ≤ place), Array.getElem?_replicate]
      split <;> rfl

theorem size_grown (words : Array UInt64) (size : Nat) :
    (grown words size).size = max words.size size := by
  unfold grown
  split
  · omega
  · simp only [Array.size_append, Array.size_replicate]
    omega

theorem contains_withCapacity (capacity index : Nat) :
    (withCapacity capacity).contains index = false := by
  rw [contains_eq, withCapacity, Array.getD_eq_getD_getElem?, Array.getElem?_replicate]
  split <;> exact wordContains_zero _

theorem contains_empty (index : Nat) : empty.contains index = false := by
  simp [contains_eq, empty, wordContains_zero]

theorem add_fst (set : SlotSet) (index : Nat) : (set.add index).1 = !set.contains index := by
  rw [add, grown_getD, contains_eq]

theorem contains_insert (set : SlotSet) (added index : Nat) :
    (set.insert added).contains index = (decide (index = added) || set.contains index) := by
  have small : index % 64 < 64 := Nat.mod_lt _ (by decide)
  have room : added / 64 < (grown set.words (added / 64 + 1)).size := by
    rw [size_grown]
    omega
  have before := grown_getD set.words (added / 64 + 1) (index / 64)
  rw [Array.getD_eq_getD_getElem?] at before
  rw [contains_eq, contains_eq, insert, add, Array.getD_eq_getD_getElem?, Array.getElem?_modify]
  by_cases same : added / 64 = index / 64
  · rw [if_pos same]
    rw [Array.getElem?_eq_getElem (by omega), Option.getD_some] at before
    rw [Array.getElem?_eq_getElem (by omega), Option.map_some, Option.getD_some, before,
      wordContains_or _ _ _ small, wordContains_bit _ _ (Nat.mod_lt _ (by decide)) small,
      Bool.or_comm]
    congr 1
    rw [decide_eq_decide]
    omega
  · have different : index ≠ added := fun equal => same (equal ▸ rfl)
    rw [if_neg same, before, decide_eq_false different, Bool.false_or]

theorem contains_insertAll (set : SlotSet) (indices : List Nat) (index : Nat) :
    (set.insertAll indices).contains index = (decide (index ∈ indices) || set.contains index) := by
  induction indices generalizing set with
  | nil => simp [insertAll]
  | cons first rest ih =>
    have step := ih (set.insert first)
    rw [insertAll, List.foldl_cons, ← insertAll, step, contains_insert]
    by_cases same : index = first <;> simp [same]

theorem contains_ofList (indices : List Nat) (index : Nat) :
    (ofList indices).contains index = decide (index ∈ indices) := by
  rw [ofList, contains_insertAll, contains_empty, Bool.or_false]

theorem contains_union (first second : SlotSet) (index : Nat) :
    (first.union second).contains index = (first.contains index || second.contains index) := by
  have small : index % 64 < 64 := Nat.mod_lt _ (by decide)
  have left := grown_getD first.words second.words.size (index / 64)
  rw [Array.getD_eq_getD_getElem?] at left
  simp only [contains_eq, union]
  rw [Array.getD_eq_getD_getElem?, Array.getElem?_mapIdx]
  by_cases inside : index / 64 < (grown first.words second.words.size).size
  · rw [Array.getElem?_eq_getElem inside, Option.getD_some] at left
    rw [Array.getElem?_eq_getElem inside, Option.map_some, Option.getD_some, left,
      wordContains_or _ _ _ small]
  · rw [Array.getElem?_eq_none (by omega), Option.getD_none] at left
    rw [size_grown] at inside
    have right : second.words.getD (index / 64) 0 = 0 := by
      rw [Array.getD_eq_getD_getElem?, Array.getElem?_eq_none (by omega), Option.getD_none]
    rw [Array.getElem?_eq_none (by rw [size_grown]; omega), ← left, right]
    simp [wordContains_zero]

theorem isEmpty_iff {set : SlotSet} : set.isEmpty ↔ ∀ index, set.contains index = false := by
  rw [isEmpty, Array.all_eq_true]
  constructor
  · intro zero index
    rw [contains_eq, Array.getD_eq_getD_getElem?]
    by_cases inside : index / 64 < set.words.size
    · rw [Array.getElem?_eq_getElem inside, Option.getD_some, eq_of_beq (zero _ inside),
        wordContains_zero]
    · rw [Array.getElem?_eq_none (Nat.not_lt.mp inside), Option.getD_none, wordContains_zero]
  · intro absent word inside
    rw [beq_iff_eq]
    apply eq_zero_of_wordContains
    intro place small
    have clear := absent (64 * word + place)
    rw [contains_eq, show (64 * word + place) / 64 = word by omega,
      show (64 * word + place) % 64 = place by omega, Array.getD_eq_getD_getElem?,
      Array.getElem?_eq_getElem inside] at clear
    exact clear

theorem mem_wordPlaces (word : UInt64) (place : Nat) :
    place ∈ wordPlaces word ↔ place < 64 ∧ wordContains word place := by
  rw [wordPlaces_eq, List.mem_filter, List.mem_range]

theorem membersFrom_cons (start : Nat) (word : UInt64) (rest : List UInt64) :
    membersFrom start (word :: rest) =
      (wordPlaces word).map (start + ·) ++ membersFrom (start + 64) rest := by
  rw [membersFrom]
  split
  · rename_i zero
    have none : wordPlaces word = [] := by
      simp [wordPlaces_eq, places, eq_of_beq zero, wordContains_zero]
    rw [none, List.map_nil, List.nil_append]
  · rfl

theorem mem_membersFrom (start index : Nat) (words : List UInt64) :
    index ∈ membersFrom start words ↔
      start ≤ index ∧ wordContains (words.getD ((index - start) / 64) 0) ((index - start) % 64) := by
  induction words generalizing start with
  | nil => simp [membersFrom, wordContains_zero]
  | cons word rest ih =>
    rw [membersFrom_cons, List.mem_append, ih, List.mem_map]
    simp only [mem_wordPlaces]
    constructor
    · intro listed
      rcases listed with ⟨place, ⟨small, found⟩, rfl⟩ | ⟨later, found⟩
      · refine ⟨by omega, ?_⟩
        rw [show start + place - start = place by omega, Nat.div_eq_of_lt small,
          Nat.mod_eq_of_lt small, List.getD_cons_zero]
        exact found
      · refine ⟨by omega, ?_⟩
        rw [show (index - start) / 64 = (index - (start + 64)) / 64 + 1 by omega,
          show (index - start) % 64 = (index - (start + 64)) % 64 by omega, List.getD_cons_succ]
        exact found
    · intro contained
      obtain ⟨least, found⟩ := contained
      by_cases near : index - start < 64
      · rw [Nat.div_eq_of_lt near, Nat.mod_eq_of_lt near, List.getD_cons_zero] at found
        exact Or.inl ⟨index - start, ⟨near, found⟩, by omega⟩
      · rw [show (index - start) / 64 = (index - (start + 64)) / 64 + 1 by omega,
          show (index - start) % 64 = (index - (start + 64)) % 64 by omega,
          List.getD_cons_succ] at found
        exact Or.inr ⟨by omega, found⟩

theorem membersFrom_ascending (start : Nat) (words : List UInt64) :
    (membersFrom start words).Pairwise (· < ·) := by
  induction words generalizing start with
  | nil => exact List.Pairwise.nil
  | cons word rest ih =>
    rw [membersFrom_cons, List.pairwise_append]
    refine ⟨?_, ih (start + 64), ?_⟩
    · have ascending : (wordPlaces word).Pairwise (· < ·) :=
        wordPlaces_eq word ▸ places_ascending word
      exact ascending.map _ (fun first second below => by omega)
    · intro first near second far
      obtain ⟨place, member, rfl⟩ := List.mem_map.mp near
      have small := ((mem_wordPlaces word place).mp member).1
      have least := ((mem_membersFrom _ _ _).mp far).1
      omega

theorem length_membersFrom (start : Nat) (words : List UInt64) :
    (membersFrom start words).length = bitCount words := by
  induction words generalizing start with
  | nil => rfl
  | cons word rest ih =>
    rw [membersFrom_cons, List.length_append, List.length_map, ih, bitCount, wordSize_eq]

theorem size_eq_length (set : SlotSet) : set.size = set.toList.length :=
  (length_membersFrom 0 set.words.toList).symm

theorem mem_toList (set : SlotSet) (index : Nat) : index ∈ set.toList ↔ set.contains index := by
  rw [toList, mem_membersFrom, contains_eq]
  simp [Array.getD_eq_getD_getElem?, List.getD_eq_getElem?_getD]

theorem toList_ascending (set : SlotSet) : set.toList.Pairwise (· < ·) :=
  membersFrom_ascending 0 set.words.toList

theorem contains_shifted {set : SlotSet} {offset index : Nat} :
    (set.shifted offset).contains index ↔
      ∃ member, set.contains member ∧ member + offset = index := by
  rw [shifted, contains_ofList, decide_eq_true_eq, List.mem_map]
  simp only [mem_toList]

theorem toList_eq_range (set : SlotSet) (count : Nat)
    (members : ∀ index, set.contains index = decide (index < count)) :
    set.toList = List.range count :=
  set.toList_ascending.eq_of_mem_iff List.pairwise_lt_range
    (fun index => by simp [mem_toList, members])

end PrunedCosine.SlotSet
