import PrunedCosine.Proofs.Liveness

/-! Pruning a block from the top down gives what backward liveness gives on the unpruned
block. A block is walked back from its first coefficients to its inputs, half by half, and
slots outside its indices pass through the walk unchanged. -/

namespace PrunedCosine

def span (buffer : Buffer) (base count : Nat) : Finset Slot :=
  (Finset.range count).image fun place => ⟨buffer, base + place⟩

theorem mem_span {buffer : Buffer} {base count : Nat} {slot : Slot} :
    slot ∈ span buffer base count ↔ slot.buffer = buffer ∧ slot.Within base count := by
  rw [span, Finset.mem_image]
  constructor
  · intro member
    obtain ⟨place, inside, rfl⟩ := member
    have small := Finset.mem_range.mp inside
    exact ⟨rfl, Slot.within_mk.mpr (by omega)⟩
  · intro inside
    obtain ⟨rfl, least, most⟩ := inside
    refine ⟨slot.index - base, Finset.mem_range.mpr (by omega), ?_⟩
    rw [show base + (slot.index - base) = slot.index by omega]

theorem mem_span_mk {buffer : Buffer} {base count index : Nat} :
    (⟨buffer, index⟩ : Slot) ∈ span buffer base count ↔ base ≤ index ∧ index < base + count := by
  rw [mem_span, Slot.within_mk, and_iff_right rfl]

theorem span_zero (buffer : Buffer) (base : Nat) : span buffer base 0 = ∅ := rfl

theorem span_add (buffer : Buffer) (base first second : Nat) :
    span buffer base (first + second) =
      span buffer base first ∪ span buffer (base + first) second := by
  ext slot
  simp only [Finset.mem_union, mem_span, Slot.Within]
  constructor
  · intro inside
    obtain ⟨same, least, most⟩ := inside
    by_cases low : slot.index < base + first
    · exact Or.inl ⟨same, least, low⟩
    · exact Or.inr ⟨same, by omega, by omega⟩
  · intro inside
    rcases inside with ⟨same, least, most⟩ | ⟨same, least, most⟩
    · exact ⟨same, least, by omega⟩
    · exact ⟨same, by omega, by omega⟩

def wantedCount : Option Nat → Nat
  | none => 0
  | some last => last + 1

theorem some_lt {last size : Nat} (bound : last < size) : ∀ wanted ∈ some last, wanted < size := by
  intro wanted same
  cases same
  exact bound

def Outside (base count : Nat) (slots : Finset Slot) : Prop :=
  ∀ slot ∈ slots, ¬slot.Within base count

theorem Outside.narrow {base count innerBase innerCount : Nat} {slots : Finset Slot}
    (outside : Outside base count slots) (least : base ≤ innerBase)
    (most : innerBase + innerCount ≤ base + count) : Outside innerBase innerCount slots :=
  fun slot member within => outside slot member (within.widen least most)

theorem Outside.union {base count : Nat} {first second : Finset Slot}
    (left : Outside base count first) (right : Outside base count second) :
    Outside base count (first ∪ second) := by
  intro slot member
  rcases Finset.mem_union.mp member with inFirst | inSecond
  · exact left slot inFirst
  · exact right slot inSecond

theorem outside_span {base count otherBase otherCount : Nat} (buffer : Buffer)
    (apart : base + count ≤ otherBase ∨ otherBase + otherCount ≤ base) :
    Outside base count (span buffer otherBase otherCount) := by
  intro slot member within
  obtain ⟨_, least, most⟩ := mem_span.mp member
  obtain ⟨low, high⟩ := within
  omega

namespace Layer

open Liveness

variable {source : Buffer} {base count : Nat} {assignments : List Assignment}
  {rest : Finset Slot}

theorem destination_mem_iff (layer : Layer source base count assignments)
    (outside : Outside base count rest) {first : Nat} {assignment : Assignment}
    (member : assignment ∈ assignments) :
    assignment.destination ∈ span source.other base first ∪ rest ↔
      assignment.destination.index < base + first := by
  obtain ⟨place, inside, written⟩ := layer.exists_place member
  rw [written, Finset.mem_union, mem_span_mk]
  constructor
  · intro member
    rcases member with ⟨_, most⟩ | outer
    · exact most
    · exact absurd (Slot.within_mk.mpr (by omega)) (outside _ outer)
  · exact fun most => Or.inl ⟨Nat.le_add_right _ _, most⟩

/-- Before a layer of which the first slots are needed, the sources of those are needed. -/
theorem mem_needed (layer : Layer source base count assignments)
    (outside : Outside base count rest) {first : Nat} (covered : first ≤ count) (slot : Slot) :
    slot ∈ needed assignments (span source.other base first ∪ rest) ↔
      (∃ assignment ∈ assignments, assignment.destination.index < base + first ∧
        slot ∈ assignment.sources) ∨ slot ∈ rest := by
  rw [mem_needed_parallel layer.parallel]
  constructor
  · intro before
    rcases before with ⟨later, untouched⟩ | ⟨assignment, member, used, read⟩
    · rcases Finset.mem_union.mp later with written | outer
      · obtain ⟨buffer, least, most⟩ := mem_span.mp written
        obtain ⟨assignment, member, same⟩ :=
          layer.exists_writer (show slot.index - base < count by omega)
        refine absurd ?_ (untouched assignment member)
        rw [same, ← buffer, show base + (slot.index - base) = slot.index by omega]
      · exact Or.inr outer
    · exact Or.inl ⟨assignment, member, (layer.destination_mem_iff outside member).mp used, read⟩
  · intro before
    rcases before with ⟨assignment, member, used, read⟩ | outer
    · exact Or.inr ⟨assignment, member, (layer.destination_mem_iff outside member).mpr used, read⟩
    · refine Or.inl ⟨Finset.mem_union_right _ outer, fun assignment member same => ?_⟩
      obtain ⟨place, inside, written⟩ := layer.exists_place member
      apply outside slot outer
      rw [← same, written]
      exact Slot.within_mk.mpr (by omega)

private theorem filter_index_lt (start : Nat) (first : Nat)
    (destinations : assignments.map Assignment.destination =
      (List.range' start count).map fun place => ⟨source.other, base + place⟩) :
    (assignments.filter fun assignment => assignment.destination.index < base + first) =
      assignments.take (first - start) := by
  induction assignments generalizing start count with
  | nil => simp
  | cons assignment others ih =>
    rcases count with _ | count
    · simp at destinations
    · rw [List.range'_succ, List.map_cons, List.map_cons, List.cons.injEq] at destinations
      obtain ⟨head, tail⟩ := destinations
      rw [List.filter_cons, ih (start + 1) tail, head]
      by_cases low : start < first
      · rw [if_pos (by simpa using low), show first - start = first - (start + 1) + 1 by omega,
          List.take_succ_cons]
      · rw [if_neg (by simpa using low), show first - start = 0 by omega,
          show first - (start + 1) = 0 by omega, List.take_zero, List.take_zero]

theorem kept_eq (layer : Layer source base count assignments)
    (outside : Outside base count rest) (first : Nat) :
    kept assignments (span source.other base first ∪ rest) = assignments.take first := by
  rw [kept_parallel layer.parallel]
  have same : ∀ assignment ∈ assignments,
      decide (assignment.destination ∈ span source.other base first ∪ rest) =
        decide (assignment.destination.index < base + first) :=
    fun assignment member => decide_eq_decide.mpr (layer.destination_mem_iff outside member)
  rw [List.filter_congr same]
  exact filter_index_lt 0 first (by rw [← List.range_eq_range']; exact layer.destinations)

end Layer

namespace Block

open Liveness

theorem interleave_take {order base truncation larger : Nat} (source : Buffer)
    (smaller : truncation ≤ larger) :
    (interleave order base larger source).take (truncation + 1) =
      interleave order base truncation source := by
  rw [interleave, interleave, ← List.map_take, List.take_range]
  congr 2
  omega

theorem pair_take {base truncation larger : Nat} (source : Buffer)
    (smaller : truncation ≤ larger) :
    (pair base larger source).take (truncation + 1) = pair base truncation source := by
  rcases truncation with _ | truncation
  · rw [pair, pair]
    split <;> rfl
  · rw [pair, pair, if_neg (by omega), if_neg (by omega)]
    exact List.take_of_length_le (by simp)

theorem opening_take {half base : Nat} {wanted larger : Option Nat} (source : Buffer)
    (smaller : wanted ≤ larger) :
    (opening half base larger source).take (openingCount half wanted) =
      opening half base wanted source := by
  have sums : ((List.range (blockSize half)).map
      (openingSum (half + 1) base source)).length = blockSize half := by simp
  cases wanted with
  | none =>
    rw [opening, opening, openingCount, inputPlaces, List.length_nil, Nat.add_zero,
      List.take_append_of_le_length (by omega), List.take_of_length_le (by omega)]
    simp
  | some last =>
    cases larger with
    | none => exact absurd smaller id
    | some _ =>
      apply List.take_of_length_le
      simp [opening, openingCount, inputPlaces]

/-- The slots that a block of which the coefficients up to `truncation` are wanted reads to
interleave them: those of the even half up to its truncation and, if the odd half is wanted,
those of the odd half up to its own. -/
def merged (half base truncation : Nat) (source : Buffer) : Finset Slot :=
  span source base (truncation / 2 + 1) ∪
    span source (base + blockSize (half + 1))
      (wantedCount (childTruncations (blockSize (half + 2)) truncation).2)

section Merged

variable {half base truncation : Nat} (source : Buffer)

theorem merged_of_sources (bound : truncation < blockSize (half + 2)) {index : Nat}
    (wanted : index ≤ truncation) {slot : Slot}
    (read : slot ∈ (merge (half + 2) base source index).sources) :
    slot ∈ merged half base truncation source := by
  have double : blockSize (half + 2) = 2 * blockSize (half + 1) := rfl
  have positive := blockSize_pos (half + 1)
  rw [merged, childTruncations_of_lt bound, Finset.mem_union]
  rw [merge_sources] at read
  split at read
  · rw [List.mem_singleton.mp read]
    exact Or.inl (mem_span_mk.mpr (by omega))
  · rw [if_neg (show truncation ≠ 0 by omega), wantedCount]
    refine Or.inr ?_
    split at read
    · rw [List.mem_singleton.mp read]
      exact mem_span_mk.mpr (by omega)
    · rcases List.mem_pair.mp read with rfl | rfl <;> exact mem_span_mk.mpr (by omega)

/-- Place `j` of the even half is read by output `2 j`; place `j` of the odd half is read by
output `2 j - 1`, except that place 0 is read by output 1. -/
theorem sources_of_merged (bound : truncation < blockSize (half + 2)) {slot : Slot}
    (member : slot ∈ merged half base truncation source) :
    ∃ index ≤ truncation, slot ∈ (merge (half + 2) base source index).sources := by
  have double : blockSize (half + 2) = 2 * blockSize (half + 1) := rfl
  have even : blockSize (half + 1) = 2 * blockSize half := rfl
  have positive := blockSize_pos half
  obtain ⟨buffer, index⟩ := slot
  rw [merged, childTruncations_of_lt bound] at member
  rcases Finset.mem_union.mp member with inEven | inOdd
  · obtain ⟨rfl, within⟩ := mem_span.mp inEven
    have range := Slot.within_mk.mp within
    refine ⟨2 * (index - base), by omega, ?_⟩
    rw [merge_sources, if_pos (by omega), List.mem_singleton]
    congr 1
    omega
  · obtain ⟨rfl, within⟩ := mem_span.mp inOdd
    have range := Slot.within_mk.mp within
    by_cases none : truncation = 0
    · rw [if_pos none, wantedCount] at range
      omega
    · rw [if_neg none, wantedCount] at range
      by_cases first : index = base + blockSize (half + 1)
      · refine ⟨1, by omega, ?_⟩
        rw [merge_sources, if_neg (by omega), if_neg (by omega), first]
        exact List.mem_cons_self ..
      · refine ⟨2 * (index - (base + blockSize (half + 1))) - 1, by omega, ?_⟩
        rw [merge_sources, if_neg (by omega), if_neg (by omega)]
        apply List.mem_cons_of_mem
        rw [List.mem_singleton]
        congr 1
        omega

theorem mem_interleave_sources {larger : Nat} (smaller : truncation ≤ larger)
    (bound : truncation < blockSize (half + 2)) (slot : Slot) :
    (∃ assignment ∈ interleave (half + 2) base larger source,
        assignment.destination.index < base + (truncation + 1) ∧ slot ∈ assignment.sources) ↔
      slot ∈ merged half base truncation source := by
  constructor
  · intro needed
    obtain ⟨assignment, member, low, read⟩ := needed
    obtain ⟨index, _, _, rfl⟩ := mem_interleave.mp member
    have wanted : index ≤ truncation := by
      simp only [merge] at low
      omega
    exact merged_of_sources source bound wanted read
  · intro member
    obtain ⟨index, wanted, read⟩ := sources_of_merged source bound member
    refine ⟨_, mem_interleave.mpr ⟨index, by omega, by omega, rfl⟩, ?_, read⟩
    simp only [merge]
    omega

end Merged

theorem mem_opening_sources {half first : Nat} (base : Nat) (odd : Option Nat) (source : Buffer)
    (covered : blockSize half ≤ first) (slot : Slot) :
    (∃ assignment ∈ opening half base odd source,
        assignment.destination.index < base + first ∧ slot ∈ assignment.sources) ↔
      slot ∈ span source base (blockSize (half + 1)) := by
  rw [blockSize_succ]
  constructor
  · intro needed
    obtain ⟨assignment, member, _, read⟩ := needed
    obtain ⟨place, inside, sources⟩ := opening_sources member
    rw [sources] at read
    rcases List.mem_pair.mp read with rfl | rfl <;> exact mem_span_mk.mpr (by omega)
  · obtain ⟨buffer, index⟩ := slot
    intro inside
    obtain ⟨rfl, within⟩ := mem_span.mp inside
    have range := Slot.within_mk.mp within
    have reader : ∀ place < blockSize half,
        (⟨buffer, index⟩ : Slot) ∈
            [⟨buffer, base + place⟩, ⟨buffer, base + 2 * blockSize half - 1 - place⟩] →
        ∃ assignment ∈ opening half base odd buffer,
          assignment.destination.index < base + first ∧
            (⟨buffer, index⟩ : Slot) ∈ assignment.sources := by
      intro place inside read
      refine ⟨_, mem_opening.mpr ⟨place, inside, Or.inl rfl⟩, ?_, ?_⟩
      · rw [openingSum_eq inside]
        dsimp only
        omega
      · rw [openingSum_eq inside]
        exact read
    by_cases low : index < base + blockSize half
    · apply reader (index - base) (by omega)
      rw [show base + (index - base) = index by omega]
      exact List.mem_cons_self ..
    · apply reader (base + 2 * blockSize half - 1 - index) (by omega)
      apply List.mem_cons_of_mem
      rw [List.mem_singleton]
      congr 1
      omega

theorem mem_pair_sources {base truncation larger : Nat} (source : Buffer) (slot : Slot) :
    (∃ assignment ∈ pair base larger source,
        assignment.destination.index < base + (truncation + 1) ∧ slot ∈ assignment.sources) ↔
      slot ∈ span source base 2 := by
  constructor
  · intro needed
    obtain ⟨assignment, member, _, read⟩ := needed
    exact mem_span.mpr ⟨(pair_layer base larger source).reads assignment member slot read,
      (pair_within base larger source assignment member).2 slot read⟩
  · obtain ⟨buffer, index⟩ := slot
    intro inside
    obtain ⟨rfl, within⟩ := mem_span.mp inside
    have range := Slot.within_mk.mp within
    obtain ⟨sum, member, sources, written⟩ : ∃ sum ∈ pair base larger buffer,
        sum.sources = [⟨buffer, base⟩, ⟨buffer, base + 1⟩] ∧ sum.destination.index = base := by
      rw [pair]
      split <;> exact ⟨_, List.mem_cons_self .., rfl, rfl⟩
    refine ⟨sum, member, by omega, ?_⟩
    rw [sources, List.mem_pair, Slot.mk.injEq, Slot.mk.injEq]
    by_cases first : index = base
    · exact Or.inl ⟨rfl, first⟩
    · exact Or.inr ⟨rfl, by omega⟩

theorem childTruncations_mono {size truncation larger : Nat} (smaller : truncation ≤ larger)
    (bound : larger < size) :
    (childTruncations size truncation).1 ≤ (childTruncations size larger).1 ∧
      (childTruncations size truncation).2 ≤ (childTruncations size larger).2 := by
  rw [childTruncations_of_lt bound, childTruncations_of_lt (smaller.trans_lt bound)]
  constructor
  · exact Nat.div_le_div_right smaller
  · dsimp only
    by_cases none : truncation = 0
    · rw [if_pos none]
      exact Option.none_le
    · rw [if_neg none, if_neg (by omega), Option.some_le_some]
      omega

/-- The walk back through a block of which `larger` is planned and `wanted` is needed: it
keeps the block planned for `wanted` and, if anything is wanted, needs all inputs. Slots
outside the block are left alone. -/
def WalksBack (order : Nat) : Prop :=
  ∀ (base : Nat) (source : Buffer) (wanted larger : Option Nat) (rest : Finset Slot),
    wanted ≤ larger → (∀ last ∈ larger, last < blockSize order) →
    Outside base (blockSize order) rest →
    needed (listingOf order base larger source)
        (span source.other base (wantedCount wanted) ∪ rest) =
      span source base (inputPlaces order wanted).length ∪ rest ∧
    kept (listingOf order base larger source)
        (span source.other base (wantedCount wanted) ∪ rest) =
      listingOf order base wanted source

theorem walk_unwanted (order base : Nat) (source : Buffer) (larger : Option Nat)
    {rest : Finset Slot} (outside : Outside base (blockSize order) rest) :
    needed (listingOf order base larger source) rest = rest ∧
      kept (listingOf order base larger source) rest = [] :=
  dead_walk fun assignment member alive =>
    outside _ alive (listingOf_within order base larger source assignment member).1

theorem walksBack_of_some {order : Nat}
    (walk : ∀ (base : Nat) (source : Buffer) (truncation larger : Nat) (rest : Finset Slot),
      truncation ≤ larger → larger < blockSize order → Outside base (blockSize order) rest →
      needed (listing order base larger source)
          (span source.other base (truncation + 1) ∪ rest) =
        span source base (blockSize order) ∪ rest ∧
      kept (listing order base larger source)
          (span source.other base (truncation + 1) ∪ rest) =
        listing order base truncation source) : WalksBack order := by
  intro base source wanted larger rest smaller bound outside
  cases wanted with
  | none =>
    simp only [wantedCount, inputPlaces, List.length_nil, span_zero, Finset.empty_union]
    exact walk_unwanted order base source larger outside
  | some truncation =>
    cases larger with
    | none => exact absurd smaller id
    | some last =>
      rw [inputPlaces, List.length_range]
      exact walk base source truncation last rest smaller (bound last rfl) outside

theorem walksBack_one : WalksBack 1 := by
  apply walksBack_of_some
  intro base source truncation larger rest smaller bound outside
  have small : larger < 2 := bound
  have layer := pair_layer base larger source
  have beyond : Outside base (min (larger + 1) 2) rest :=
    outside.narrow le_rfl (Nat.add_le_add_left (Nat.min_le_right _ _) _)
  constructor
  · ext slot
    rw [listing, layer.mem_needed beyond (by omega), mem_pair_sources, Finset.mem_union]
    rfl
  · rw [listing, layer.kept_eq beyond, pair_take source smaller]
    rfl

theorem walk_interleave {half base truncation larger : Nat} (source : Buffer)
    {rest : Finset Slot} (smaller : truncation ≤ larger) (bound : larger < blockSize (half + 2))
    (outside : Outside base (blockSize (half + 2)) rest) :
    needed (interleave (half + 2) base larger source)
        (span source.other base (truncation + 1) ∪ rest) =
      span source base (truncation / 2 + 1) ∪
        span source (base + blockSize (half + 1))
          (wantedCount (childTruncations (blockSize (half + 2)) truncation).2) ∪ rest ∧
    kept (interleave (half + 2) base larger source)
        (span source.other base (truncation + 1) ∪ rest) =
      interleave (half + 2) base truncation source := by
  have layer : Layer source base (min (larger + 1) (blockSize (half + 2))) _ :=
    interleave_layer (half + 1) base larger source
  have beyond : Outside base (min (larger + 1) (blockSize (half + 2))) rest :=
    outside.narrow le_rfl (Nat.add_le_add_left (Nat.min_le_right _ _) _)
  constructor
  · ext slot
    rw [layer.mem_needed beyond (by omega),
      mem_interleave_sources source smaller (smaller.trans_lt bound), ← Finset.mem_union, merged]
  · rw [layer.kept_eq beyond, interleave_take source smaller]

theorem walk_opening {half : Nat} {wanted larger : Option Nat} (base : Nat) (source : Buffer)
    {rest : Finset Slot} (smaller : wanted ≤ larger)
    (outside : Outside base (blockSize (half + 1)) rest) :
    needed (opening half base larger source)
        (span source.other base (openingCount half wanted) ∪ rest) =
      span source base (blockSize (half + 1)) ∪ rest ∧
    kept (opening half base larger source)
        (span source.other base (openingCount half wanted) ∪ rest) =
      opening half base wanted source := by
  have layer := opening_layer half base larger source
  have beyond : Outside base (openingCount half larger) rest :=
    outside.narrow le_rfl (Nat.add_le_add_left (openingCount_le half larger) _)
  have covered : openingCount half wanted ≤ openingCount half larger := by
    cases wanted with
    | none => exact Nat.le_add_right _ _
    | some _ =>
      cases larger with
      | none => exact absurd smaller Option.not_some_le_none
      | some _ => exact le_rfl
  constructor
  · ext slot
    have sources := mem_opening_sources base larger source
      (Nat.le_add_right (blockSize half) (inputPlaces half wanted).length) slot
    rw [layer.mem_needed beyond covered, openingCount, sources, ← Finset.mem_union]
  · rw [layer.kept_eq beyond, opening_take source smaller]

theorem walksBack_succ {half : Nat} (ih : WalksBack (half + 1)) : WalksBack (half + 2) := by
  apply walksBack_of_some
  intro base source truncation larger rest smaller bound outside
  have double : blockSize (half + 2) = 2 * blockSize (half + 1) := rfl
  have evenWanted : wantedCount (some (childTruncations (blockSize (half + 2)) truncation).1) =
    truncation / 2 + 1 := rfl
  obtain ⟨evenBound, oddBound⟩ := childTruncations_bounds bound
  obtain ⟨evenSmaller, oddSmaller⟩ := childTruncations_mono smaller bound
  obtain ⟨closed, closedKept⟩ := walk_interleave source smaller bound outside
  obtain ⟨opened, openedKept⟩ := walk_opening base source oddSmaller outside
  rw [listing_succ, listing_succ]
  generalize (childTruncations (blockSize (half + 2)) truncation).1 = evenLast at *
  generalize (childTruncations (blockSize (half + 2)) truncation).2 = oddLast at *
  generalize (childTruncations (blockSize (half + 2)) larger).1 = largerEven at *
  generalize (childTruncations (blockSize (half + 2)) larger).2 = largerOdd at *
  -- the halves read what the block writes, and write what the block reads
  have odd := ih (base + blockSize (half + 1)) source.other oddLast largerOdd
    (span source base (truncation / 2 + 1) ∪ rest) oddSmaller oddBound
    ((outside_span source (Or.inr (by omega))).union (outside.narrow (by omega) (by omega)))
  have even := ih base source.other (some evenLast) (some largerEven)
    (span source.other (base + blockSize (half + 1)) (inputPlaces (half + 1) oddLast).length ∪
      rest) (Option.some_le_some.mpr evenSmaller)
    (some_lt evenBound)
    ((outside_span source.other (Or.inl (by omega))).union (outside.narrow (by omega) (by omega)))
  have joined : span source.other base (inputPlaces (half + 1) (some evenLast)).length ∪
      (span source.other (base + blockSize (half + 1)) (inputPlaces (half + 1) oddLast).length ∪
        rest) = span source.other base (openingCount (half + 1) oddLast) ∪ rest := by
    rw [inputPlaces, List.length_range, openingCount, span_add, Finset.union_assoc]
  rw [Buffer.other_other] at odd even
  rw [evenWanted] at even
  -- the live sets before the closing layer, before the odd half and before the even half
  rw [Finset.union_comm (span source base _), Finset.union_assoc] at closed
  rw [Finset.union_left_comm (span source.other _ _)] at odd
  rw [joined] at even
  constructor
  · rw [needed_append, needed_append, needed_append, closed, odd.1]
    exact (congrArg _ even.1).trans opened
  · rw [kept_append, kept_append, kept_append, needed_append, needed_append, closed, odd.1,
      closedKept, odd.2]
    exact congrArg₂ (· ++ ·) ((congrArg _ even.1).trans openedKept)
      (congrArg (· ++ _) even.2)

theorem walksBack (order : Nat) : WalksBack (order + 1) := by
  induction order with
  | zero => exact walksBack_one
  | succ half ih => exact walksBack_succ ih

/-- The whole walk through a plan, from its coefficients to its inputs. -/
theorem walk_plan {order truncation larger : Nat} (base : Nat) (positive : 1 ≤ order)
    (smaller : truncation ≤ larger) (bound : larger < blockSize order) :
    needed (listing order base larger .input) (span .work base (truncation + 1)) =
      span .input base (blockSize order) ∧
    kept (listing order base larger .input) (span .work base (truncation + 1)) =
      listing order base truncation .input := by
  obtain ⟨half, rfl⟩ := Nat.exists_eq_add_of_le' positive
  have walk := walksBack half base .input (some truncation) (some larger) ∅
    (Option.some_le_some.mpr smaller) (some_lt bound)
    (fun slot member => absurd member (Finset.notMem_empty slot))
  rw [Finset.union_empty, Finset.union_empty, inputPlaces, List.length_range] at walk
  exact walk

end Block

/-- Planning fewer coefficients gives what is left of the full plan when everything that does
not lead to them is eliminated, with the same order and the same fields. -/
theorem kept_of_full_plan {order base truncation : Nat} {full pruned : Plan}
    (positive : 1 ≤ order) (bound : truncation < blockSize order)
    (fullPlan : Plan.Obtained order base (some (blockSize order - 1)) full)
    (prunedPlan : Plan.Obtained order base (some truncation) pruned) :
    Liveness.kept full.assignments (span .work base (truncation + 1)) = pruned.assignments := by
  rw [fullPlan.eq_canonical positive, prunedPlan.eq_canonical positive]
  exact (Block.walk_plan base positive (by omega) (by omega)).2

theorem kept_of_full_plan_eight :
    1 ≤ 3 ∧ 4 < blockSize 3 ∧
      Plan.Obtained 3 5 (some (blockSize 3 - 1)) (Plan.build 3 5 (some 7) .fresh).1 ∧
      Plan.Obtained 3 5 (some 4) (Plan.build 3 5 (some 4) ((plan 4 0 9).run .fresh).2).1 ∧
      Liveness.kept (Plan.build 3 5 (some 7) .fresh).1.assignments (span .work 5 5) =
        (Plan.build 3 5 (some 4) ((plan 4 0 9).run .fresh).2).1.assignments :=
  ⟨by decide, by decide, .build .fresh, .build (.plan 4 0 9 .fresh),
    kept_of_full_plan (by decide) (by decide) (.build .fresh) (.build (.plan 4 0 9 .fresh))⟩

end PrunedCosine
