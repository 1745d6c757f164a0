import Mathlib.Data.Nat.Log
import PrunedCosine.Generate
import PrunedCosine.Proofs.Confinement
import PrunedCosine.Proofs.RoutineRun

/-! The scales that planning asks for are those that the table has. Planning numbers the scale of a
difference by the size of its block and its place there, and the table numbers its scales one after
the other; both give each difference the same scale, whichever of the blocks of its size it is in
and however large the table is. -/

namespace PrunedCosine

namespace ScaleId

theorem ofDifference_eq {half k : Nat} (inside : k < 2 ^ half) :
    ofDifference (2 ^ (half + 1)) k = ⟨2 ^ half - 1 + k⟩ := by
  have halved : 2 ^ (half + 1) / 2 = 2 ^ half := by omega
  rw [ofDifference, halved, if_pos inside]

theorem log_ofDifference {half k : Nat} (inside : k < 2 ^ half) :
    Nat.log 2 ((ofDifference (2 ^ (half + 1)) k).index + 1) = half := by
  have positive := Nat.two_pow_pos half
  rw [ofDifference_eq inside]
  apply Nat.log_eq_of_pow_le_of_lt_pow
  · dsimp only
    omega
  · dsimp only
    omega

/-- The differences of blocks of at least four values, each with the size of its block. -/
def scaledPlaces (order : Nat) : Set (Nat × Nat) :=
  {pair | ∃ q, 2 ≤ q ∧ q ≤ order ∧ pair.1 = 2 ^ q ∧ pair.2 < 2 ^ (q - 1)}

theorem mem_scaledPlaces {order size k : Nat} :
    (size, k) ∈ scaledPlaces order ↔
      ∃ half, 1 ≤ half ∧ half < order ∧ size = 2 ^ (half + 1) ∧ k < 2 ^ half := by
  constructor
  · intro made
    obtain ⟨q, two, covered, rfl, inside⟩ := made
    obtain ⟨half, rfl⟩ := Nat.exists_eq_add_of_le' (Nat.one_le_of_lt two)
    exact ⟨half, Nat.le_of_succ_le_succ two, covered, rfl, inside⟩
  · intro made
    obtain ⟨half, positive, covered, rfl, inside⟩ := made
    exact ⟨half + 1, Nat.succ_le_succ positive, covered, rfl, inside⟩

theorem ofDifference_bijOn (order : Nat) :
    Set.BijOn (fun pair => ofDifference pair.1 pair.2) (scaledPlaces order)
      {id | 1 ≤ id.index ∧ id.index ≤ 2 ^ order - 2} := by
  refine ⟨?mapsTo, ?injOn, ?surjOn⟩
  case mapsTo =>
    intro ⟨size, k⟩ made
    obtain ⟨half, positive, covered, rfl, inside⟩ := mem_scaledPlaces.mp made
    have two : 2 ^ 1 ≤ 2 ^ half := Nat.pow_le_pow_right two_pos positive
    have most : 2 ^ (half + 1) ≤ 2 ^ order := Nat.pow_le_pow_right two_pos covered
    simp only [ofDifference_eq inside, Set.mem_ofPred_eq]
    omega
  case injOn =>
    intro ⟨size, k⟩ made ⟨otherSize, otherK⟩ otherMade same
    obtain ⟨half, _, _, rfl, inside⟩ := mem_scaledPlaces.mp made
    obtain ⟨other, _, _, rfl, otherInside⟩ := mem_scaledPlaces.mp otherMade
    dsimp only at same
    have level := log_ofDifference inside
    rw [same, log_ofDifference otherInside] at level
    subst level
    rw [ofDifference_eq inside, ofDifference_eq otherInside, mk.injEq] at same
    rw [Nat.add_left_cancel same]
  case surjOn =>
    intro ⟨index⟩ range
    obtain ⟨least, most⟩ := range
    dsimp only at least most
    have low : 2 ^ Nat.log 2 (index + 1) ≤ index + 1 := Nat.pow_log_le_self 2 (Nat.succ_ne_zero _)
    have high : index + 1 < 2 ^ (Nat.log 2 (index + 1) + 1) :=
      Nat.lt_pow_succ_log_self one_lt_two _
    have positive : 1 ≤ Nat.log 2 (index + 1) := Nat.log_pos one_lt_two (Nat.succ_le_succ least)
    have covered : Nat.log 2 (index + 1) < order := Nat.log_lt_of_lt_pow (by omega) (by omega)
    have inside : index + 1 - 2 ^ Nat.log 2 (index + 1) < 2 ^ Nat.log 2 (index + 1) := by omega
    refine ⟨(2 ^ (Nat.log 2 (index + 1) + 1), index + 1 - 2 ^ Nat.log 2 (index + 1)),
      mem_scaledPlaces.mpr ⟨_, positive, covered, rfl, inside⟩, ?_⟩
    simp only [ofDifference_eq inside, mk.injEq]
    omega

end ScaleId

namespace ScaleTable

structure LaidOut (α : Type) [Scalar α] (order : Nat) : Prop where
  size : (ofOrder order : ScaleTable α).size = 2 ^ order + 1
  ids : ∀ id scale, (ofOrder order : ScaleTable α).get? id = some scale → scale.id = id
  differences : ∀ q k, 2 ≤ q → q ≤ order → k < 2 ^ (q - 1) →
    ∃ scale, (ofOrder order : ScaleTable α).get? (.ofDifference (2 ^ q) k) = some scale ∧
      scale.kind = .inverseCosine k (2 ^ (q + 1)) ∧
      0 < 2 * (2 * k + 1) ∧ 2 * (2 * k + 1) < 2 ^ (q + 1) ∧
      Real.cos (scaleAngle q k) ≠ 0
  first : ∃ scale, (ofOrder order : ScaleTable α).get? ⟨2 ^ order - 1⟩ = some scale ∧
    scale.kind = .dc order ∧ scale.name = "D0"
  other : ∃ scale, (ofOrder order : ScaleTable α).get? ⟨2 ^ order⟩ = some scale ∧
    scale.kind = .ac order ∧ scale.name = "D1"
  names : ∀ id otherId scale otherScale,
    (ofOrder order : ScaleTable α).get? id = some scale →
    (ofOrder order : ScaleTable α).get? otherId = some otherScale →
    scale.name = otherScale.name → id = otherId
  larger : ∀ larger, order ≤ larger → ∀ id : ScaleId, id.index < 2 ^ order - 1 →
    (ofOrder larger : ScaleTable α).get? id = (ofOrder order : ScaleTable α).get? id

section Layout

variable {α : Type} [Scalar α]

theorem id_of_get? {order : Nat} {id : ScaleId} {scale : Scale α}
    (found : (ofOrder order : ScaleTable α).get? id = some scale) : scale.id = id := by
  rw [get?_ofOrder] at found
  obtain ⟨kind, _, rfl⟩ := Option.map_eq_some_iff.mp found
  rfl

theorem get?_larger {half larger : Nat} (covered : half + 1 ≤ larger) {id : ScaleId}
    (small : id.index + 1 < blockSize (half + 1)) :
    (ofOrder larger : ScaleTable α).get? id = (ofOrder (half + 1) : ScaleTable α).get? id := by
  rw [get?_ofOrder, get?_ofOrder, getElem?_kinds_of_lt covered small,
    getElem?_kinds_of_lt le_rfl small]

theorem laidOut {order : Nat} (positive : 1 ≤ order) : LaidOut α order := by
  obtain ⟨half, rfl⟩ := Nat.exists_eq_add_of_le' positive
  have size : (ofOrder (half + 1) : ScaleTable α).size = 2 ^ (half + 1) + 1 := by
    rw [size_ofOrder, blockSize_eq_pow]
  refine ⟨size, fun id scale => id_of_get?, ?differences, ?first, ?other, ?names, ?larger⟩
  case differences =>
    intro q k two covered inside
    obtain ⟨level, rfl⟩ := Nat.exists_eq_add_of_le' two
    change k < 2 ^ (level + 1) at inside
    have found := get?_difference (α := α) covered (blockSize_eq_pow (level + 1) ▸ inside)
    rw [blockSize_eq_pow, blockSize_eq_pow, ← pow_succ'] at found
    rw [ScaleId.ofDifference_eq inside]
    refine ⟨_, found, rfl, Nat.succ_pos _, ?_, cos_scaleAngle_ne (level + 1) inside⟩
    rw [pow_succ, pow_succ]
    omega
  case first => exact ⟨_, blockSize_eq_pow (half + 1) ▸ get?_dc half, rfl, rfl⟩
  case other => exact ⟨_, blockSize_eq_pow (half + 1) ▸ get?_ac half, rfl, rfl⟩
  case names =>
    intro id otherId scale otherScale found otherFound same
    rw [← id_of_get? found, ← id_of_get? otherFound,
      name_injective (mem_of_get? found) (mem_of_get? otherFound) same]
  case larger =>
    intro larger covered id small
    apply get?_larger covered
    rw [blockSize_eq_pow]
    omega

end Layout

end ScaleTable

namespace Block

def difference (order base : Nat) (source : Buffer) (place : Nat) : Assignment :=
  { destination := ⟨source.other, base + 2 ^ (order - 1) + place⟩,
    expression := .combine .minus ⟨source, base + place⟩ ⟨source, base + 2 ^ order - 1 - place⟩
      (some (if order = 1 then .quarterCosine else .ofDifference (2 ^ order) place)),
    order := order,
    stage := .butterfly }

theorem openingDifference_eq_difference {half place : Nat} (inside : place < 2 ^ (half + 1))
    (base : Nat) (source : Buffer) :
    openingDifference (half + 2) base source place = difference (half + 2) base source place := by
  rw [difference, if_neg (by omega), ScaleId.ofDifference_eq inside]
  rw [← blockSize_eq_pow] at inside
  rw [openingDifference_eq inside, ← blockSize_succ, blockSize_eq_pow, blockSize_eq_pow]
  rfl

/-- Of the assignments that a block makes itself, the differences are scaled and no others. -/
theorem exists_difference {order base truncation : Nat} {source : Buffer} {assignment : Assignment}
    (member : assignment ∈ own order base truncation source) (scaled : assignment.scale ≠ none) :
    ∃ place < 2 ^ (order - 1), assignment = difference order base source place := by
  obtain _ | _ | half := order
  · simp [own] at member
  · rw [own, pair] at member
    refine ⟨0, Nat.one_pos, ?_⟩
    split at member
    · cases List.mem_singleton.mp member
      exact absurd rfl scaled
    · rcases List.mem_pair.mp member with rfl | rfl
      · exact absurd rfl scaled
      · rfl
  · rcases List.mem_append.mp member with opened | closed
    · obtain ⟨place, inside, rfl⟩ := exists_openingDifference opened scaled
      rw [blockSize_eq_pow] at inside
      exact ⟨place, inside, openingDifference_eq_difference inside base source⟩
    · exact absurd (scale_of_mem_interleave closed) scaled

end Block

/-- Every difference is scaled by the scale that the table has for its place in its block: the table
is the same wherever tables of several orders have an id, its scales are the ones that are meant,
and each scaled assignment of a plan is the difference that its scale belongs to. -/
theorem differences_scaled_by_table {order : Nat} (accepted : checkOrder order = .ok ()) :
    (∀ session, ((scaleTable order).run session).1 = .ok (.ofOrder order)) ∧
    Set.BijOn (fun pair => ScaleId.ofDifference pair.1 pair.2) (ScaleId.scaledPlaces order)
      {id | 1 ≤ id.index ∧ id.index ≤ 2 ^ order - 2} ∧
    (∀ {α : Type} [Scalar α], ScaleTable.LaidOut α order) ∧
    ∀ base truncation result, Plan.Obtained order base truncation result →
      ∀ assignment ∈ result.assignments, assignment.scale ≠ none →
        1 ≤ assignment.order ∧ assignment.order ≤ order ∧
        ∃ m < 2 ^ (order - assignment.order), ∃ k < 2 ^ (assignment.order - 1), ∃ source,
          assignment =
            Block.difference assignment.order (base + m * 2 ^ assignment.order) source k := by
  have positive := (Plan.checkOrder_ok accepted).1
  refine ⟨fun session => ?_, ScaleId.ofDifference_bijOn order, ScaleTable.laidOut positive, ?_⟩
  · rw [scaleTable, accepted]
    rfl
  · intro base truncation result obtained assignment member scaled
    cases obtained.eq_canonical positive
    cases truncation with
    | none => simp [Plan.canonical, Block.listingOf] at member
    | some last =>
      obtain ⟨least, most, m, inside, _, made⟩ := Block.exists_owner _ _ _ _ assignment member
      obtain ⟨k, small, same⟩ := Block.exists_difference made scaled
      rw [blockSize_eq_pow] at inside same
      exact ⟨least, most, m, inside, k, small, _, same⟩

theorem differences_scaled_by_table_eight :
    checkOrder 3 = .ok () ∧
      (∃ scale, (ScaleTable.ofOrder 3 : ScaleTable Float).get? ⟨5⟩ = some scale ∧
        scale.kind = .inverseCosine 2 16) ∧
      Plan.Obtained 3 4 (some 5) (Plan.build 3 4 (some 5) ((plan 5 2 7).run .fresh).2).1 ∧
      ∀ assignment ∈ (Plan.build 3 4 (some 5) ((plan 5 2 7).run .fresh).2).1.assignments,
        assignment.scale ≠ none →
          ∃ m < 2 ^ (3 - assignment.order), ∃ k < 2 ^ (assignment.order - 1), ∃ source,
            assignment =
              Block.difference assignment.order (4 + m * 2 ^ assignment.order) source k := by
  have obtained : Plan.Obtained 3 4 (some 5)
      (Plan.build 3 4 (some 5) ((plan 5 2 7).run .fresh).2).1 := .build (.plan 5 2 7 .fresh)
  obtain ⟨_, _, table, scaled⟩ :=
    differences_scaled_by_table (show checkOrder 3 = .ok () from rfl)
  obtain ⟨scale, found, kind, _⟩ := (table (α := Float)).differences 3 2 (by decide) (by decide)
    (by decide)
  refine ⟨rfl, ⟨scale, found, kind⟩, obtained, fun assignment member some => ?_⟩
  exact (scaled 4 _ _ obtained assignment member some).2.2

end PrunedCosine
