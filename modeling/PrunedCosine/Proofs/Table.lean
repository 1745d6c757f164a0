import PrunedCosine.Scale.Table
import Std.Data.String.ToNat

/-! Where the table of an order keeps its scales. The scales of the differences in blocks of one
size follow those of all smaller blocks, so the table of a larger order starts with the same
scales; the two output scales come last. No two scales of a table have the same name. -/

namespace PrunedCosine

namespace ScaleId

theorem text_toList (id : ScaleId) : id.text.toList = 'C' :: (Nat.repr id.index).toList := by
  simp only [text, String.toList_append]
  rfl

theorem text_injective {first second : ScaleId} (same : first.text = second.text) :
    first = second := by
  have digits := congrArg String.toList same
  rw [text_toList, text_toList, List.cons.injEq] at digits
  have indices := Nat.repr_inj.mp (String.toList_inj.mp digits.2)
  cases first
  cases second
  cases indices
  rfl

/-- The names of the output scales start with another letter than those of the differences. -/
theorem text_ne_output (id : ScaleId) : id.text ≠ "D0" ∧ id.text ≠ "D1" := by
  constructor <;>
  · intro same
    have letters := congrArg String.toList same
    rw [text_toList] at letters
    exact absurd (List.cons.inj letters).1 (by decide)

end ScaleId

def Scale.ofKind {α : Type} [Scalar α] (id : ScaleId) (kind : ScaleKind) : Scale α :=
  ⟨id, kind, kind.value⟩

namespace ScaleTable

def differenceKinds (order : Nat) : List ScaleKind :=
  .quarterCosine :: (List.range' 2 (order - 1)).flatMap levelKinds

theorem kinds_eq (order : Nat) : kinds order = differenceKinds order ++ [.dc order, .ac order] :=
  rfl

theorem levelKinds_succ (half : Nat) :
    levelKinds (half + 1) =
      (List.range (blockSize half)).map fun k => .inverseCosine k (2 * blockSize (half + 1)) := by
  have halved : blockSize (half + 1) / 2 = blockSize half := by
    rw [blockSize_succ]
    omega
  rw [levelKinds, halved]

theorem differenceKinds_succ (half : Nat) :
    differenceKinds (half + 2) = differenceKinds (half + 1) ++ levelKinds (half + 2) := by
  unfold differenceKinds
  rw [show half + 2 - 1 = half + 1 by omega, show half + 1 - 1 = half by omega,
    List.range'_1_concat, List.flatMap_append, List.flatMap_singleton, Nat.add_comm 2 half]
  rfl

theorem length_differenceKinds (half : Nat) :
    (differenceKinds (half + 1)).length = blockSize (half + 1) - 1 := by
  induction half with
  | zero => rfl
  | succ half ih =>
    have double : blockSize (half + 1 + 1) = 2 * blockSize (half + 1) := rfl
    have positive := blockSize_pos (half + 1)
    rw [differenceKinds_succ, List.length_append, ih, levelKinds_succ, List.length_map,
      List.length_range]
    omega

theorem differenceKinds_isPrefix {half order : Nat} (covered : half + 1 ≤ order) :
    (differenceKinds (half + 1)).IsPrefix (differenceKinds order) := by
  induction covered with
  | refl => exact List.prefix_rfl
  | @step order covered ih =>
    obtain ⟨rest, rfl⟩ : ∃ rest, order = rest + 1 :=
      ⟨order - 1, (Nat.sub_add_cancel (Nat.one_le_of_lt covered)).symm⟩
    rw [differenceKinds_succ]
    exact ih.trans (List.prefix_append _ _)

theorem getElem?_kinds_of_lt {half order index : Nat} (covered : half + 1 ≤ order)
    (small : index + 1 < blockSize (half + 1)) :
    (kinds order)[index]? = (differenceKinds (half + 1))[index]? := by
  have inside : index < (differenceKinds (half + 1)).length := by
    rw [length_differenceKinds]
    omega
  obtain ⟨later, whole⟩ := differenceKinds_isPrefix covered
  rw [kinds_eq, ← whole, List.append_assoc, List.getElem?_append_left inside]

/-- The scale of difference `k` in a block keeps its place in the tables of all larger orders. -/
theorem getElem?_kinds_difference {half order k : Nat} (covered : half + 2 ≤ order)
    (inside : k < blockSize (half + 1)) :
    (kinds order)[blockSize (half + 1) - 1 + k]? =
      some (.inverseCosine k (2 * blockSize (half + 2))) := by
  have small : blockSize (half + 1) - 1 + k + 1 < blockSize (half + 2) := by
    rw [blockSize_succ (half + 1)]
    omega
  rw [getElem?_kinds_of_lt covered small, differenceKinds_succ, List.getElem?_append_right,
    length_differenceKinds, Nat.add_sub_cancel_left, levelKinds_succ, List.getElem?_map,
    List.getElem?_range inside]
  · rfl
  · rw [length_differenceKinds]
    omega

theorem mem_of_get? {α : Type} {table : ScaleTable α} {id : ScaleId} {scale : Scale α}
    (found : table.get? id = some scale) : scale ∈ table.entries.toList :=
  Array.mem_toList_iff.mpr (Array.mem_of_getElem? found)

section Values

variable {α : Type} [Scalar α]

theorem get?_ofOrder (order : Nat) (id : ScaleId) :
    (ofOrder order : ScaleTable α).get? id =
      (kinds order)[id.index]?.map (Scale.ofKind id) := by
  rw [get?, ofOrder, Array.getElem?_mapIdx, List.getElem?_toArray]
  rfl

theorem value_of_get? {order : Nat} {id : ScaleId} {scale : Scale α}
    (found : (ofOrder order : ScaleTable α).get? id = some scale) :
    (ofOrder order : ScaleTable α).value id = scale.value := by
  rw [value, found]

theorem size_eq_length (order : Nat) :
    (ofOrder order : ScaleTable α).size = (kinds order).length := by
  rw [size, ofOrder, Array.size_mapIdx, List.size_toArray]

theorem size_ofOrder (half : Nat) :
    (ofOrder (half + 1) : ScaleTable α).size = blockSize (half + 1) + 1 := by
  have positive := blockSize_pos (half + 1)
  rw [size_eq_length, kinds_eq, List.length_append, length_differenceKinds, List.length_cons,
    List.length_singleton]
  omega

theorem dc_ofOrder (half : Nat) :
    (ofOrder (half + 1) : ScaleTable α).dc = ⟨blockSize (half + 1) - 1⟩ := by
  rw [dc, size_ofOrder]
  rfl

theorem ac_ofOrder (half : Nat) :
    (ofOrder (half + 1) : ScaleTable α).ac = ⟨blockSize (half + 1)⟩ := by
  rw [ac, size_ofOrder]
  rfl

theorem get?_difference {half order k : Nat} (covered : half + 2 ≤ order)
    (inside : k < blockSize (half + 1)) :
    (ofOrder order : ScaleTable α).get? ⟨blockSize (half + 1) - 1 + k⟩ =
      some (.ofKind ⟨blockSize (half + 1) - 1 + k⟩
        (.inverseCosine k (2 * blockSize (half + 2)))) := by
  rw [get?_ofOrder, getElem?_kinds_difference covered inside]
  rfl

theorem get?_dc (half : Nat) :
    (ofOrder (half + 1) : ScaleTable α).get? ⟨blockSize (half + 1) - 1⟩ =
      some (.ofKind ⟨blockSize (half + 1) - 1⟩ (.dc (half + 1))) := by
  have found : (kinds (half + 1))[blockSize (half + 1) - 1]? = some (.dc (half + 1)) := by
    rw [kinds_eq, ← length_differenceKinds, List.getElem?_append_right (Nat.le_refl _),
      Nat.sub_self]
    rfl
  rw [get?_ofOrder, found]
  rfl

theorem get?_ac (half : Nat) :
    (ofOrder (half + 1) : ScaleTable α).get? ⟨blockSize (half + 1)⟩ =
      some (.ofKind ⟨blockSize (half + 1)⟩ (.ac (half + 1))) := by
  have positive := blockSize_pos (half + 1)
  have found : (kinds (half + 1))[blockSize (half + 1)]? = some (.ac (half + 1)) := by
    rw [kinds_eq, List.getElem?_append_right, length_differenceKinds,
      show blockSize (half + 1) - (blockSize (half + 1) - 1) = 1 by omega]
    · rfl
    · rw [length_differenceKinds]
      omega
  rw [get?_ofOrder, found]
  rfl

theorem value_quarterCosine (order : Nat) :
    (ofOrder order : ScaleTable α).value .quarterCosine = ScaleKind.quarterCosine.value :=
  value_of_get? (get?_ofOrder order .quarterCosine)

theorem value_difference {half order k : Nat} (covered : half + 2 ≤ order)
    (inside : k < blockSize (half + 1)) :
    (ofOrder order : ScaleTable α).value ⟨blockSize (half + 1) - 1 + k⟩ =
      (ScaleKind.inverseCosine k (2 * blockSize (half + 2))).value :=
  value_of_get? (get?_difference covered inside)

theorem value_dc (half : Nat) :
    (ofOrder (half + 1) : ScaleTable α).value (ofOrder (half + 1) : ScaleTable α).dc =
      (ScaleKind.dc (half + 1)).value := by
  rw [dc_ofOrder]
  exact value_of_get? (get?_dc half)

theorem value_ac (half : Nat) :
    (ofOrder (half + 1) : ScaleTable α).value (ofOrder (half + 1) : ScaleTable α).ac =
      (ScaleKind.ac (half + 1)).value := by
  rw [ac_ofOrder]
  exact value_of_get? (get?_ac half)

end Values

theorem getElem?_kinds {order index : Nat} {kind : ScaleKind}
    (found : (kinds order)[index]? = some kind) :
    kind.isOutputScale = false ∨
      (index = (differenceKinds order).length ∧ kind = .dc order) ∨
      (index = (differenceKinds order).length + 1 ∧ kind = .ac order) := by
  rw [kinds_eq] at found
  by_cases early : index < (differenceKinds order).length
  · rw [List.getElem?_append_left early] at found
    refine Or.inl ?_
    rcases List.mem_cons.mp (List.mem_of_getElem? found) with rfl | later
    · rfl
    · obtain ⟨level, _, member⟩ := List.mem_flatMap.mp later
      obtain ⟨k, _, rfl⟩ := List.mem_map.mp member
      rfl
  · obtain ⟨place, rfl⟩ : ∃ place, index = (differenceKinds order).length + place :=
      ⟨index - (differenceKinds order).length, by omega⟩
    rw [List.getElem?_append_right (Nat.le_add_right _ _), Nat.add_sub_cancel_left] at found
    rcases place with _ | _ | place
    · exact Or.inr (Or.inl ⟨rfl, (Option.some.inj found).symm⟩)
    · exact Or.inr (Or.inr ⟨rfl, (Option.some.inj found).symm⟩)
    · simp at found

theorem name_cases {order index : Nat} {kind : ScaleKind}
    (found : (kinds order)[index]? = some kind) {α : Type} (value : α) :
    Scale.name ⟨⟨index⟩, kind, value⟩ = ScaleId.text ⟨index⟩ ∨
      (index = (differenceKinds order).length ∧ Scale.name ⟨⟨index⟩, kind, value⟩ = "D0") ∨
      (index = (differenceKinds order).length + 1 ∧ Scale.name ⟨⟨index⟩, kind, value⟩ = "D1") := by
  rcases getElem?_kinds found with difference | ⟨rfl, rfl⟩ | ⟨rfl, rfl⟩
  · cases kind <;> first | exact Or.inl rfl | cases difference
  · exact Or.inr (Or.inl ⟨rfl, rfl⟩)
  · exact Or.inr (Or.inr ⟨rfl, rfl⟩)

section Names

variable {α : Type} [Scalar α]

theorem mem_entries {order : Nat} {scale : Scale α} :
    scale ∈ (ofOrder order : ScaleTable α).entries.toList ↔
      ∃ index kind, (kinds order)[index]? = some kind ∧ scale = ⟨⟨index⟩, kind, kind.value⟩ := by
  rw [List.mem_iff_getElem?]
  simp only [ofOrder, Array.getElem?_toList, Array.getElem?_mapIdx, List.getElem?_toArray,
    Option.map_eq_some_iff]
  simp only [eq_comm]

theorem name_injective {order : Nat} {first second : Scale α}
    (firstStored : first ∈ (ofOrder order : ScaleTable α).entries.toList)
    (secondStored : second ∈ (ofOrder order : ScaleTable α).entries.toList)
    (same : first.name = second.name) : first = second := by
  obtain ⟨index, kind, found, rfl⟩ := mem_entries.mp firstStored
  obtain ⟨otherIndex, otherKind, otherFound, rfl⟩ := mem_entries.mp secondStored
  have indices : index = otherIndex := by
    have first := name_cases found (kind.value : α)
    have second := name_cases otherFound (otherKind.value : α)
    rw [same] at first
    have text := ScaleId.text_ne_output
    have injective := @ScaleId.text_injective ⟨index⟩ ⟨otherIndex⟩
    grind
  rw [indices, otherFound] at found
  cases indices
  cases found
  rfl

theorem exists_stored {order : Nat} {id : ScaleId}
    (inside : id.index < (ofOrder order : ScaleTable α).size) :
    ∃ scale, (ofOrder order : ScaleTable α).get? id = some scale ∧ scale.id = id := by
  have kept : id.index < (kinds order).length := by
    rwa [size_eq_length] at inside
  rw [get?_ofOrder, List.getElem?_eq_getElem kept]
  exact ⟨_, rfl, rfl⟩

theorem two_le_size (order : Nat) : 2 ≤ (ofOrder order : ScaleTable α).size := by
  rw [size_eq_length, kinds_eq, List.length_append]
  exact Nat.le_add_left 2 _

theorem nameOf_cases {order : Nat} (id : ScaleId) :
    (ofOrder order : ScaleTable α).nameOf id = id.text ∨
      (id = (ofOrder order : ScaleTable α).dc ∧ (ofOrder order : ScaleTable α).nameOf id = "D0") ∨
      (id = (ofOrder order : ScaleTable α).ac ∧
        (ofOrder order : ScaleTable α).nameOf id = "D1") := by
  have size : (ofOrder order : ScaleTable α).size = (differenceKinds order).length + 2 := by
    rw [size_eq_length, kinds_eq, List.length_append]
    rfl
  obtain ⟨index⟩ := id
  rw [nameOf, dc, ac, size, get?_ofOrder]
  cases found : (kinds order)[index]? with
  | none => exact Or.inl rfl
  | some kind =>
    rcases name_cases found (kind.value : α) with text | ⟨rfl, text⟩ | ⟨rfl, text⟩
    · exact Or.inl text
    · exact Or.inr (Or.inl ⟨rfl, text⟩)
    · exact Or.inr (Or.inr ⟨rfl, text⟩)

end Names

end ScaleTable

end PrunedCosine
