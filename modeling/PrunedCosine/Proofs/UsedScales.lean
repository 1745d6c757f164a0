import Mathlib.Data.List.Flatten
import PrunedCosine.Proofs.ReadBack
import PrunedCosine.Proofs.RoutineRun
import PrunedCosine.Proofs.Cosine

/-! Which scales a plan uses. Where only the first coefficient is wanted there is no difference, and
so no scale. Where more is wanted, more is wanted of the odd half too, and the same holds down to
the smallest block; so the blocks of each size bring all scales of their size. A routine therefore
declares either all of the table or an output scale at most. -/

namespace PrunedCosine

namespace Block

theorem scale_of_mem_listing_first (order base : Nat) (source : Buffer) :
    ∀ assignment ∈ listing order base 0 source, assignment.scale = none := by
  induction order using Nat.twoStepInduction generalizing base source with
  | zero => simp [listing]
  | one =>
    intro assignment member
    rw [List.mem_singleton.mp member]
    rfl
  | more half _ ih =>
    intro assignment member
    rw [listing_succ, childTruncations_first, List.mem_append, List.mem_append, List.mem_append] at member
    rcases member with opened | inEven | inOdd | closed
    · obtain ⟨place, inside, rfl | ⟨wanted, _⟩⟩ := mem_opening.mp opened
      · rw [openingSum_eq inside]
        rfl
      · cases wanted
    · exact ih base source.other assignment inEven
    · cases inOdd
    · exact scale_of_mem_interleave closed

/-- Where more than the first coefficient is wanted, every scale of the differences up to the size
of the block is used: the largest ones by the block itself, the others by its odd half. -/
theorem exists_scaled {half base truncation : Nat} (source : Buffer) (wanted : 1 ≤ truncation)
    (bound : truncation < blockSize (half + 1)) {index : Nat}
    (small : index + 1 < blockSize (half + 1)) :
    ∃ assignment ∈ listing (half + 1) base truncation source, assignment.scale = some ⟨index⟩ := by
  induction half generalizing base truncation source with
  | zero =>
    have two : blockSize (0 + 1) = 2 := rfl
    obtain rfl : index = 0 := by omega
    rw [listing, pair, if_neg (by omega)]
    exact ⟨_, List.mem_cons_of_mem _ (List.mem_singleton_self _), rfl⟩
  | succ half ih =>
    change truncation < blockSize (half + 2) at bound
    change index + 1 < blockSize (half + 2) at small
    have double : blockSize (half + 2) = 2 * blockSize (half + 1) := rfl
    have even : blockSize (half + 1) = 2 * blockSize half := rfl
    have positive := blockSize_pos half
    have split := childTruncations_of_lt bound
    rw [if_neg (by omega)] at split
    rw [listing_succ, split]
    simp only [List.mem_append]
    by_cases lower : index + 1 < blockSize (half + 1)
    · have oddWanted : 1 ≤ min ((truncation + 1) / 2) (blockSize (half + 2) / 2 - 1) := by omega
      obtain ⟨assignment, member, scaled⟩ := ih source.other oddWanted (by omega) lower
      exact ⟨assignment, Or.inr (Or.inr (Or.inl member)), scaled⟩
    · have inside : index - (blockSize (half + 1) - 1) < blockSize (half + 1) := by omega
      refine ⟨_, Or.inl (mem_opening.mpr ⟨_, inside, Or.inr ⟨rfl, rfl⟩⟩), ?_⟩
      rw [openingDifference_eq inside]
      show some (ScaleId.mk _) = _
      rw [show blockSize (half + 1) - 1 + (index - (blockSize (half + 1) - 1)) = index by omega]

end Block

namespace Plan

theorem validate_wanted {order base : Nat} {truncation : Int} {wanted : Option Nat}
    (accepted : validate order base truncation = .ok wanted) :
    (wantedCount wanted : Int) = truncation + 1 := by
  obtain ⟨_, _, ⟨rfl, rfl⟩ | ⟨last, rfl, rfl, _⟩⟩ := validate_ok accepted <;> rfl

/-- The ids are listed in ascending order, so it is enough to know which ones are used. -/
theorem scaleIds_eq_range {plan : Plan} {count : Nat}
    (used : ∀ index, (∃ assignment ∈ plan.assignments, assignment.scale = some ⟨index⟩) ↔
      index < count) : plan.scaleIds = (List.range count).map ScaleId.mk := by
  have ascending : plan.usedScales.toList.Pairwise (· < ·) :=
    Std.TreeSet.ordered_toList.imp fun below => Nat.compare_eq_lt.mp below
  have members (index : Nat) : index ∈ plan.usedScales.toList ↔ index ∈ List.range count := by
    rw [List.mem_range, ← used, Std.TreeSet.mem_toList, ← contains_usedScales]
    rfl
  rw [scaleIds, ascending.eq_of_mem_iff List.pairwise_lt_range members]

theorem canonical_scaled_iff {order : Nat} (base : Nat) {truncation : Option Nat}
    (positive : 1 ≤ order) (bound : ∀ last ∈ truncation, last < blockSize order) {index : Nat} :
    (∃ assignment ∈ (canonical order base truncation).assignments,
        assignment.scale = some ⟨index⟩) ↔
      2 ≤ wantedCount truncation ∧ index + 1 < blockSize order := by
  cases truncation with
  | none => simp [canonical, Block.listingOf, wantedCount]
  | some last =>
    change (∃ assignment ∈ Block.listing order base last .input, _) ↔ 2 ≤ last + 1 ∧ _
    constructor
    · intro made
      obtain ⟨assignment, member, scaled⟩ := made
      refine ⟨?_, Block.scale_lt_of_mem_listing _ _ _ _ assignment member _ scaled⟩
      by_contra few
      obtain rfl : last = 0 := by omega
      rw [Block.scale_of_mem_listing_first _ _ _ assignment member] at scaled
      cases scaled
    · intro range
      obtain ⟨many, small⟩ := range
      obtain ⟨half, rfl⟩ := Nat.exists_eq_add_of_le' positive
      exact Block.exists_scaled .input (Nat.le_of_succ_le_succ many) (bound last rfl) small

theorem scaleIds_canonical {order : Nat} (base : Nat) {truncation : Option Nat}
    (positive : 1 ≤ order) (bound : ∀ last ∈ truncation, last < blockSize order) :
    (canonical order base truncation).scaleIds =
      (List.range (if 2 ≤ wantedCount truncation then blockSize order - 1 else 0)).map
        ScaleId.mk := by
  apply scaleIds_eq_range
  intro index
  rw [canonical_scaled_iff base positive bound]
  split <;> omega

theorem declaredScales_eq_iff {α : Type} {plan : Plan} {table : ScaleTable α}
    {name : Option String} :
    plan.declaredScales table { name } = table.entries.toList ↔
      ∀ scale ∈ table.entries.toList, plan.Uses table scale.id := by
  constructor
  · intro whole scale stored
    rw [← whole, mem_declaredScales] at stored
    exact stored.2.resolve_left Bool.false_ne_true
  · intro used
    rw [declaredScales, if_neg Bool.false_ne_true, List.filter_eq_self]
    intro scale stored
    simpa [Uses, or_assoc] using used scale stored

section Table

variable {α : Type} [Scalar α] {half : Nat} (base : Nat) {truncation : Option Nat}

theorem uses_canonical_iff (bound : ∀ last ∈ truncation, last < blockSize (half + 1))
    {index : Nat} :
    (canonical (half + 1) base truncation).Uses (.ofOrder (half + 1) : ScaleTable α) ⟨index⟩ ↔
      (2 ≤ wantedCount truncation ∧ index + 1 < blockSize (half + 1)) ∨
        (index = blockSize (half + 1) - 1 ∧ 1 ≤ wantedCount truncation) ∨
        (index = blockSize (half + 1) ∧ 2 ≤ wantedCount truncation) := by
  rw [Uses, contains_usedScales, canonical_scaled_iff base (Nat.succ_pos half) bound,
    outputCount_canonical base bound, ScaleTable.dc_ofOrder, ScaleTable.ac_ofOrder,
    ScaleId.mk.injEq, ScaleId.mk.injEq]

/-- The scale of the later coefficients is declared only where there are some, and then so are all
the others. -/
theorem declaredScales_canonical (bound : ∀ last ∈ truncation, last < blockSize (half + 1))
    (name : Option String) :
    (canonical (half + 1) base truncation).declaredScales (.ofOrder (half + 1) : ScaleTable α)
        { name } = (ScaleTable.ofOrder (half + 1) : ScaleTable α).entries.toList ↔
      2 ≤ wantedCount truncation := by
  have nonempty := blockSize_pos (half + 1)
  rw [declaredScales_eq_iff]
  constructor
  · intro used
    have last := used _ (ScaleTable.mem_of_get? (ScaleTable.get?_ac half))
    rw [Scale.ofKind, uses_canonical_iff base bound] at last
    omega
  · intro many scale stored
    obtain ⟨index, kind, found, rfl⟩ := ScaleTable.mem_entries.mp stored
    have inside : index < (ScaleTable.ofOrder (half + 1) : ScaleTable α).size := by
      simpa [ScaleTable.size, ScaleTable.ofOrder] using (List.getElem?_eq_some_iff.mp found).1
    rw [ScaleTable.size_ofOrder] at inside
    rw [uses_canonical_iff base bound]
    omega

end Table

end Plan

theorem eq_of_textOfLines {part whole : List String} (sublist : part.Sublist whole)
    (same : textOfLines part = textOfLines whole) : part = whole := by
  have letters := congrArg String.toList same
  rw [toList_textOfLines, toList_textOfLines] at letters
  clear same
  induction sublist with
  | slnil => rfl
  | @cons part whole line sublist ih =>
    -- the line that is left out ends at least
    have shorter := (sublist.flatMap fun line : String => line.toList ++ ['\n']).length_le
    rw [letters, List.flatMap_cons, List.length_append, List.length_append,
      List.length_singleton] at shorter
    omega
  | @cons_cons part whole line sublist ih =>
    rw [List.flatMap_cons, List.flatMap_cons] at letters
    rw [ih (List.append_cancel_left letters)]

namespace Target

def declaration : Target → Scale Float → String
  | javaScript => JavaScript.declaration
  | rust => Rust.declaration
  | c => C.declaration

theorem exists_opening (target : Target) (routine : Routine Float) :
    ∃ before after, ∀ scales, target.opening { routine with scales } =
      before ++ (scales.map target.declaration ++ after) := by
  have summary (scales : List (Scale Float)) :
      Routine.summary { routine with scales } = routine.summary := rfl
  have last (scales : List (Scale Float)) (resting active : List String) :
      (if Routine.isIdle { routine with scales } then resting else active) =
        if routine.isIdle then resting else active := rfl
  cases target with
  | javaScript =>
    simp only [opening, JavaScript.opening, summary, List.append_assoc]
    exact ⟨_, _, fun scales => rfl⟩
  | rust =>
    simp only [opening, Rust.opening, summary, last, List.append_assoc]
    exact ⟨_, _, fun scales => rfl⟩
  | c =>
    simp only [opening, C.opening, summary, last, List.append_assoc]
    exact ⟨_, _, fun scales => rfl⟩

theorem exists_text (target : Target) (routine : Routine Float) :
    ∃ before after, ∀ scales, target.text { routine with scales } =
      textOfLines (before ++ (scales.map target.declaration ++ after)) := by
  obtain ⟨before, after, opened⟩ := target.exists_opening routine
  have statements (scales : List (Scale Float)) :
      (target.statements { routine with scales }).map
          (Routine.line { routine with scales } target.indent target.arrayNames) =
        (target.statements routine).map (routine.line target.indent target.arrayNames) := by
    cases target <;> rfl
  simp only [text, opened, statements, List.append_assoc]
  exact ⟨_, _, fun scales => rfl⟩

theorem text_eq_iff (target : Target) (routine : Routine Float) {part whole : List (Scale Float)}
    (sublist : part.Sublist whole) :
    target.text { routine with scales := whole } = target.text { routine with scales := part } ↔
      part = whole := by
  obtain ⟨before, after, spelled⟩ := target.exists_text routine
  constructor
  · intro same
    have letters := congrArg String.toList same
    simp only [spelled, textOfLines_append] at letters
    have cut := List.append_cancel_right (List.append_cancel_left letters)
    have lines := eq_of_textOfLines (sublist.map target.declaration) (String.toList_inj.mp cut.symm)
    have length := congrArg List.length lines
    rw [List.length_map, List.length_map] at length
    exact sublist.eq_of_length length
  · rintro rfl
    rfl

end Target

/-- A plan uses either all scales of the differences or none of them. So, whatever the routine is
called and in whatever language it is written, it makes no difference whether it declares the whole
table, unless only the first coefficient is wanted or none. -/
theorem declares_all_or_few {session : Session} (planned : session.Planned) {order base : Nat}
    {truncation : Int} {wanted : Option Nat}
    (accepted : Plan.validate order base truncation = .ok wanted) :
    ∃ result after, (plan order base truncation).run session = (.ok result, after) ∧
      result.scaleIds =
        (if truncation ≤ 0 then [] else (List.range (2 ^ order - 1)).map ScaleId.mk) ∧
      ∀ (target : Target) (name : Option String) (first second : Session),
        ∃ whole used,
          ((writeRoutine result (.ofOrder order) target { name, allScales := true }).run first).1 =
            .ok whole ∧
          ((writeRoutine result (.ofOrder order) target { name, allScales := false }).run
            second).1 = .ok used ∧
          (whole = used ↔ 1 ≤ truncation) := by
  have positive := (Plan.validate_order accepted).1
  have bound := Plan.validate_bounds accepted
  have many : 2 ≤ wantedCount wanted ↔ 1 ≤ truncation := by
    have count := Plan.validate_wanted accepted
    omega
  let result := Plan.canonical order base wanted
  refine ⟨result, (Plan.build order base wanted session).2, ?_, ?_,
    fun target name first second => ?_⟩
  · rw [Session.plan_of_accepted accepted, planned.build_eq positive]
  · rw [Plan.scaleIds_canonical base positive bound, blockSize_eq_pow]
    split <;> split <;> first | rfl | omega
  · obtain ⟨_, wrote⟩ := result.writeRoutine_eq target { name, allScales := true } first
    obtain ⟨_, wroteUsed⟩ := result.writeRoutine_eq target { name, allScales := false } second
    refine ⟨_, _, congrArg Prod.fst wrote, congrArg Prod.fst wroteUsed, ?_⟩
    obtain ⟨half, rfl⟩ := Nat.exists_eq_add_of_le' positive
    rw [← many, ← Plan.declaredScales_canonical (α := Float) base bound name]
    exact target.text_eq_iff (result.routine (.ofOrder (half + 1)) { name })
      (result.declared_sublist (.ofOrder (half + 1)) { name })

theorem declares_all_or_few_eight :
    Session.Planned ((plan 5 2 7).run .fresh).2 ∧ Plan.validate 3 4 1 = .ok (some 1) ∧
      ∃ result after, (plan 3 4 1).run ((plan 5 2 7).run .fresh).2 = (.ok result, after) ∧
        result.scaleIds = [⟨0⟩, ⟨1⟩, ⟨2⟩, ⟨3⟩, ⟨4⟩, ⟨5⟩, ⟨6⟩] ∧
        ∃ whole used,
          ((writeRoutine result (.ofOrder 3) .rust { name := "dct", allScales := true }).run
            .fresh).1 = .ok whole ∧
          ((writeRoutine result (.ofOrder 3) .rust { name := "dct", allScales := false }).run
            .fresh).1 = .ok used ∧
          whole = used := by
  obtain ⟨result, after, given, scales, texts⟩ :=
    declares_all_or_few (.plan 5 2 7 .fresh) (show Plan.validate 3 4 1 = .ok (some 1) from rfl)
  obtain ⟨whole, used, wrote, wroteUsed, same⟩ := texts .rust "dct" .fresh .fresh
  exact ⟨.plan 5 2 7 .fresh, rfl, result, after, given, scales, whole, used, wrote, wroteUsed,
    same.mpr (by decide)⟩

end PrunedCosine
